import Naul.Ipc
import Naul.Lib.LittleEndian
import Mathlib.Order.CompletePartialOrder

/-!
# The names of listeners (`os/src/ipc.c`, `include/str.h`)

`registerListener` copies a name of any length into a field of 256 bytes. Behind that field lie the
fields `paging` and `handler`, and behind these the element ends; here an element is its bytes, so that
one sees where a name goes that does not fit. The links are kept apart from the bytes.

Up to 255 characters the bytes are those of the element that `Naul.registerListener` makes
(`Represents.registerListener`). From 256 to 271 characters the name's end is overwritten by the two
words stored after it, and from 272 on it leaves the element. `registerListener_safe_iff` says which
names are safe.
-/

namespace Naul

open LinkRing LittleEndian

/-! ### Strings in memory -/

/-- `copyString(source, destination)`, where the source lies outside the memory. -/
def copyString : List UInt8 → ℕ → Cells UInt8 → Cells UInt8
  | [], destination, m => m.store destination 0
  | c :: source, destination, m => copyString source (destination + 1) (m.store destination c)

/-- `compareStrings(a, b)`, where `b` is an address. -/
def compareStringsAt (m : Cells UInt8) : List UInt8 → ℕ → UInt64
  | [], b => charDiff 0 (m.cell b)
  | c :: a, b => if c ≠ m.cell b then charDiff c (m.cell b) else compareStringsAt m a (b + 1)

/-- `*(uint64_t*)address = value`. -/
def storeWord (address : ℕ) (value : UInt64) (m : Cells UInt8) : Cells UInt8 :=
  m.storeList address (bytes 8 value.toNat)

/-- `*(uint64_t*)address`. -/
def loadWord (m : Cells UInt8) (address : ℕ) : UInt64 :=
  .ofNat (value ((List.range 8).map fun i => m.cell (address + i)))

theorem copyString_eq (source : List UInt8) (destination : ℕ) (m : Cells UInt8) :
    copyString source destination m = m.storeList destination (source ++ [0]) := by
  induction source generalizing destination m with
  | nil => rfl
  | cons c source ih =>
    rw [copyString, ih]
    rfl

/-- The comparison is zero exactly when the memory has the string, with its terminator. -/
theorem compareStringsAt_eq_zero {m : Cells UInt8} {a : List UInt8} {b : ℕ} :
    compareStringsAt m a b = 0 ↔ m.Has b (a ++ [0]) := by
  induction a generalizing b with
  | nil =>
    rw [compareStringsAt, charDiff_eq_zero, List.nil_append]
    constructor
    · intro h i v hv
      obtain ⟨rfl, rfl⟩ : i = 0 ∧ 0 = v := by simpa [List.getElem?_singleton] using hv
      exact h.symm
    · intro h
      exact (h 0 0 rfl).symm
  | cons c a ih =>
    rw [compareStringsAt, List.cons_append, ← List.singleton_append, Cells.has_append]
    have hhead : m.Has b [c] ↔ c = m.cell b := by
      constructor
      · intro h
        exact (h 0 c rfl).symm
      · intro h i v hv
        obtain ⟨rfl, rfl⟩ : i = 0 ∧ c = v := by simpa [List.getElem?_singleton] using hv
        exact h.symm
    rw [hhead]
    split_ifs with hc
    · rw [charDiff_eq_zero]
      exact iff_of_false hc fun h => hc h.1
    · rw [ih, not_not] at *
      exact (and_iff_right hc).symm

/-- At an address there is at most one string. -/
theorem string_unique {m : Cells UInt8} {a b : List UInt8} {p : ℕ} (ha : 0 ∉ a) (hb : 0 ∉ b)
    (hasA : m.Has p (a ++ [0])) (hasB : m.Has p (b ++ [0])) : a = b := by
  -- a string does not go on behind the terminator of another
  have hle : ∀ {a b : List UInt8}, 0 ∉ b → m.Has p (a ++ [0]) → m.Has p (b ++ [0]) →
      b.length ≤ a.length := by
    intro a b hb hasA hasB
    by_contra hlt
    rw [not_le] at hlt
    have hzero := hasA a.length 0 (by simp)
    have hchar := hasB a.length b[a.length] (by rw [List.getElem?_append_left hlt]; simp)
    exact hb (hzero ▸ hchar ▸ List.getElem_mem hlt)
  apply List.ext_getElem (le_antisymm (hle ha hasB hasA) (hle hb hasA hasB))
  intro i hi hi'
  rw [← hasA i a[i] (by rw [List.getElem?_append_left hi]; simp),
    ← hasB i b[i] (by rw [List.getElem?_append_left hi']; simp)]

theorem loadWord_of_has {m : Cells UInt8} {address : ℕ} {value : UInt64}
    (h : m.Has address (bytes 8 value.toNat)) : loadWord m address = value := by
  have hread : ((List.range 8).map fun i => m.cell (address + i)) = bytes 8 value.toNat := by
    apply List.map_congr_left
    intro i hi
    apply h
    simp [bytes, List.mem_range.1 hi]
  rw [loadWord, hread, value_bytes, ← UInt64.toNat_inj, UInt64.toNat_ofNat', Nat.mod_mod_of_dvd]
  · exact Nat.mod_eq_of_lt value.toNat_lt
  · exact ⟨1, rfl⟩

/-! ### Elements in memory -/

/-- Where the fields of a `ListenerElement` are; its header is 16 bytes long. -/
def nameOffset : ℕ := 16

def pagingOffset : ℕ := nameOffset + nameSize

def handlerOffset : ℕ := pagingOffset + 8

/-- `sizeof(ListenerElement)`. -/
def elementSize : ℕ := handlerOffset + 8

/-- The variable `listeners`, and the memory of its elements. -/
structure ListenerMemory where
  listeners : UInt64
  links : Links UInt64
  memory : Cells UInt8

namespace ListenerMemory

/-- `element->name`, as an address. -/
def nameAt (element : UInt64) : ℕ := element.toNat + nameOffset

def paging (s : ListenerMemory) (element : UInt64) : UInt64 :=
  loadWord s.memory (element.toNat + pagingOffset)

def handler (s : ListenerMemory) (element : UInt64) : UInt64 :=
  loadWord s.memory (element.toNat + handlerOffset)

/-- The bytes of an element. -/
def block (element : UInt64) : Set ℕ := Set.Ico element.toNat (element.toNat + elementSize)

/-- The stores of `registerListener(handler, name)` to the element that `allocate` has returned. -/
def fillListener (element cr3 handler : UInt64) (name : CString) (m : Cells UInt8) : Cells UInt8 :=
  let m := copyString name.bytes (nameAt element) m
  let m := storeWord (element.toNat + pagingOffset) cr3 m
  storeWord (element.toNat + handlerOffset) handler m

/-- `registerListener(handler, name)` after `allocate`, which has returned `element`. -/
def registerListener (element cr3 handler : UInt64) (name : CString) (s : ListenerMemory) :
    ListenerMemory :=
  { s with
    memory := fillListener element cr3 handler name s.memory
    links := linkList s.links s.listeners element }

/-- `checkListener(name)`. -/
def checkListener (fuel : ℕ) (name : CString) (s : ListenerMemory) : Option Bool :=
  WhileLoop.run (iterate s.links s.listeners
    (fun (_ : Unit) e =>
      if compareStringsAt s.memory name.bytes (nameAt e) = 0 then .inr true else .inl ())
    fun _ => false) fuel ((), s.listeners)

/-- The element's name field, read as a string, is this name. -/
def HasName (s : ListenerMemory) (name : CString) (element : UInt64) : Prop :=
  s.memory.Has (nameAt element) (name.bytes ++ [0])

/-- The registration from `s` to `s'` has stored inside the element only, and the element is found under
its name and has the caller's tables and handler. -/
structure Safe (s s' : ListenerMemory) (element cr3 handler : UInt64) (name : CString) : Prop where
  stores : Cells.StoresIn (block element) s.memory s'.memory
  check : ∃ fuel, checkListener fuel name s' = some true
  paging : s'.paging element = cr3
  handler : s'.handler element = handler

variable {s s' : ListenerMemory} {xs : List UInt64} {e element cr3 handler : UInt64} {name : CString}

theorem checkListener_eq (h : IsRing s.links s.listeners xs) (name : CString) :
    checkListener (xs.length + 1) name s =
      some (xs.any fun e => compareStringsAt s.memory name.bytes (nameAt e) = 0) := by
  have hturn : (fun (_ : Unit) e =>
      if compareStringsAt s.memory name.bytes (nameAt e) = 0 then Sum.inr true else .inl ()) =
      fun _ e => if decide (compareStringsAt s.memory name.bytes (nameAt e) = 0) then .inr true
        else .inl () := by
    funext _ e
    simp only [decide_eq_true_eq]
  rw [checkListener, hturn, run_iterate h, foldUntil_any]

/-- `checkListener` says whether an element has the name. -/
theorem checkListener_true_iff (h : IsRing s.links s.listeners xs) :
    (∃ fuel, checkListener fuel name s = some true) ↔ ∃ x ∈ xs, s.HasName name x := by
  have hany : (xs.any fun e => decide (compareStringsAt s.memory name.bytes (nameAt e) = 0)) = true ↔
      ∃ x ∈ xs, s.HasName name x := by
    simp only [List.any_eq_true, decide_eq_true_eq, compareStringsAt_eq_zero, HasName]
  rw [← hany]
  constructor
  · rintro ⟨fuel, hrun⟩
    exact WhileLoop.run_unique (checkListener_eq h name) hrun
  · intro htrue
    exact ⟨xs.length + 1, by rw [checkListener_eq h, htrue]⟩

/-! ### The stores of a registration -/

theorem fillListener_eq (element cr3 handler : UInt64) (name : CString) (m : Cells UInt8) :
    fillListener element cr3 handler name m =
      (m.storeList (nameAt element) (name.bytes ++ [0])).storeList (element.toNat + pagingOffset)
        (bytes 8 cr3.toNat ++ bytes 8 handler.toNat) := by
  rw [fillListener, copyString_eq, Cells.storeList_append _ (element.toNat + pagingOffset),
    length_bytes]
  rfl

/-- The words stored last are there, whatever the name is. -/
theorem words_right (s : ListenerMemory) (element cr3 handler : UInt64) (name : CString) :
    (registerListener element cr3 handler name s).paging element = cr3 ∧
      (registerListener element cr3 handler name s).handler element = handler := by
  have hhas := Cells.has_storeList (s.memory.storeList (nameAt element) (name.bytes ++ [0]))
    (element.toNat + pagingOffset) (bytes 8 cr3.toNat ++ bytes 8 handler.toNat)
  rw [Cells.has_append, length_bytes, ← fillListener_eq] at hhas
  exact ⟨loadWord_of_has hhas.1, loadWord_of_has hhas.2⟩

/-- The stores lie in the element exactly when the name ends there. -/
theorem storesIn_block_iff (element cr3 handler : UInt64) (name : CString) (m : Cells UInt8) :
    Cells.StoresIn (block element) m (fillListener element cr3 handler name m) ↔
      name.bytes.length ≤ 271 := by
  rw [fillListener_eq]
  constructor
  · rintro ⟨⟨new, hnew, hblock⟩, -⟩
    rw [Cells.storeList_stores, Cells.storeList_stores, ← List.append_assoc,
      List.append_cancel_right_eq] at hnew
    by_contra hlong
    -- the byte behind the element has been stored to
    have hmem : element.toNat + elementSize ∈ new := by
      rw [← hnew, List.mem_append, List.mem_reverse, List.mem_reverse]
      right
      rw [List.mem_range'_1]
      simp only [nameAt, nameOffset, elementSize, handlerOffset, pagingOffset, nameSize,
        List.length_append, List.length_singleton]
      omega
    exact lt_irrefl _ (hblock _ hmem).2
  · intro hshort
    refine ((Cells.storesIn_storeList m _ _).mono ?_).trans ((Cells.storesIn_storeList _ _ _).mono ?_)
    · apply Set.Ico_subset_Ico
      · exact Nat.le_add_right _ _
      · simp only [nameAt, nameOffset, elementSize, handlerOffset, pagingOffset, nameSize,
          List.length_append, List.length_singleton]
        omega
    · apply Set.Ico_subset_Ico
      · exact Nat.le_add_right _ _
      · simp only [elementSize, handlerOffset, List.length_append, length_bytes]
        omega

/-- What of a name reaches beyond its field is there exactly when the two words begin with it. -/
theorem hasName_self_iff (s : ListenerMemory) (hlength : name.bytes.length ≤ 271) :
    (registerListener element cr3 handler name s).HasName name element ↔
      (name.bytes ++ [0]).drop nameSize <+: bytes 8 cr3.toNat ++ bytes 8 handler.toNat := by
  set text := name.bytes ++ [0] with htext
  have htextLength : text.length ≤ 272 := by
    rw [htext, List.length_append, List.length_singleton]
    omega
  -- the part inside the field is not stored to again
  have hinside : (fillListener element cr3 handler name s.memory).Has (nameAt element)
      (text.take nameSize) := by
    rw [fillListener_eq]
    refine ((Cells.storesIn_storeList _ _ _).has_iff fun i hi hmem => ?_).2
      ((Cells.has_storeList _ _ _).initial (List.take_prefix nameSize text))
    rw [List.length_take] at hi
    have hbelow := hmem.1
    simp only [nameAt, pagingOffset] at hbelow
    omega
  have hword : (text.drop nameSize).length ≤ (bytes 8 cr3.toNat ++ bytes 8 handler.toNat).length := by
    simp only [List.length_drop, List.length_append, length_bytes, nameSize]
    omega
  rw [HasName, ← htext, ← List.take_append_drop nameSize text, Cells.has_append,
    List.take_append_drop]
  show (fillListener element cr3 handler name s.memory).Has _ _ ∧
    (fillListener element cr3 handler name s.memory).Has _ _ ↔ _
  rw [and_iff_right hinside]
  by_cases hfits : text.length ≤ nameSize
  · rw [List.drop_eq_nil_of_le hfits]
    exact iff_of_true (fun i v hv => by simp at hv) (List.nil_prefix)
  · rw [List.length_take, min_eq_left (by omega), nameAt, Nat.add_assoc, fillListener_eq]
    exact Cells.has_storeList_iff hword

/-! ### The elements of the registry -/

/-- The memory has the elements of the registry, none of which has a name that does not fit. -/
structure Represents (s : ListenerMemory) (t : Listeners) (xs : List UInt64) : Prop where
  listeners : s.listeners = t.listeners
  links : s.links = t.links
  ring : IsRing s.links s.listeners xs
  name : ∀ x ∈ xs, s.HasName (t.element x).name x
  paging : ∀ x ∈ xs, s.paging x = (t.element x).paging
  handler : ∀ x ∈ xs, s.handler x = (t.element x).handler

variable {t : Listeners}

theorem Represents.hasName_iff (h : Represents s t xs) (hx : e ∈ xs) :
    s.HasName name e ↔ (t.element e).name = name := by
  constructor
  · intro hname
    exact CString.ext (string_unique (t.element e).name.nul_free name.nul_free (h.name e hx) hname)
  · rintro rfl
    exact h.name e hx

/-- `checkListener` sees the names only. -/
theorem Represents.checkListener (h : Represents s t xs) (name : CString) :
    checkListener (xs.length + 1) name s = Naul.checkListener (xs.length + 1) name t := by
  have hring := h.ring
  rw [checkListener_eq hring]
  rw [h.links, h.listeners] at hring
  have hany := @foldUntil_any _ xs fun e => decide ((t.element e).name = name)
  simp only [decide_eq_true_eq] at hany
  simp only [Naul.checkListener, compareStrings_eq_zero_iff, run_iterate hring]
  rw [hany, Option.some.injEq, Bool.eq_iff_iff, List.any_eq_true, List.any_eq_true]
  refine exists_congr fun x => and_congr_right fun hx => ?_
  rw [decide_eq_true_eq, decide_eq_true_eq, compareStringsAt_eq_zero]
  exact h.hasName_iff hx

/-- A registration changes nothing in the other elements when it stores in its own only. -/
theorem registerListener_frame (hdisjoint : Disjoint (block e) (block element))
    (hlength : name.bytes.length ≤ 271) :
    (∀ other : CString, other.bytes.length ≤ 271 →
      ((registerListener element cr3 handler name s).HasName other e ↔ s.HasName other e)) ∧
    (registerListener element cr3 handler name s).paging e = s.paging e ∧
    (registerListener element cr3 handler name s).handler e = s.handler e := by
  have hstores := (storesIn_block_iff element cr3 handler name s.memory).2 hlength
  have hcell : ∀ i, i < elementSize → e.toNat + i ∉ block element := by
    intro i hi
    exact Set.disjoint_left.1 hdisjoint ⟨Nat.le_add_right _ _, Nat.add_lt_add_left hi _⟩
  have hword : ∀ offset, offset + 8 ≤ elementSize →
      loadWord (registerListener element cr3 handler name s).memory (e.toNat + offset) =
        loadWord s.memory (e.toNat + offset) := by
    intro offset hoffset
    rw [loadWord, loadWord]
    refine congrArg _ (congrArg _ (List.map_congr_left fun i hi => ?_))
    rw [List.mem_range] at hi
    rw [Nat.add_assoc]
    exact hstores.frame _ (hcell _ (by omega))
  refine ⟨fun other hother => hstores.has_iff fun i hi => ?_, hword _ (by decide), hword _ (by decide)⟩
  rw [List.length_append, List.length_singleton] at hi
  rw [nameAt, Nat.add_assoc]
  apply hcell
  simp only [nameOffset, elementSize, handlerOffset, pagingOffset, nameSize]
  omega

/-- **Which names are safe.** A name that ends inside the element, and whose bytes beyond the field are
the first ones of the two words that are stored over them; or for which there is an element already. -/
theorem registerListener_safe_iff (hring : IsRing s.links s.listeners xs)
    (hfresh : element ∉ s.listeners :: xs) (hdisjoint : ∀ x ∈ xs, Disjoint (block x) (block element))
    (cr3 handler : UInt64) (name : CString) :
    Safe s (registerListener element cr3 handler name s) element cr3 handler name ↔
      name.bytes.length ≤ 271 ∧
        ((name.bytes ++ [0]).drop nameSize <+: bytes 8 cr3.toNat ++ bytes 8 handler.toNat ∨
          ∃ x ∈ xs, s.HasName name x) := by
  have hwords := words_right s element cr3 handler name
  have hstores := storesIn_block_iff element cr3 handler name s.memory
  have hcheck : (∃ fuel, checkListener fuel name (registerListener element cr3 handler name s) =
      some true) ↔ ∃ x ∈ xs ++ [element], (registerListener element cr3 handler name s).HasName name x :=
    checkListener_true_iff (isRing_linkList hring hfresh)
  have hparts : name.bytes.length ≤ 271 → ((∃ x ∈ xs ++ [element],
      (registerListener element cr3 handler name s).HasName name x) ↔
      (name.bytes ++ [0]).drop nameSize <+: bytes 8 cr3.toNat ++ bytes 8 handler.toNat ∨
        ∃ x ∈ xs, s.HasName name x) := by
    intro hlength
    have hother : ∀ x ∈ xs, ((registerListener element cr3 handler name s).HasName name x ↔
        s.HasName name x) := fun x hx => (registerListener_frame (hdisjoint x hx) hlength).1 name hlength
    rw [← hasName_self_iff s hlength]
    constructor
    · rintro ⟨x, hx, hname⟩
      rcases List.mem_append.1 hx with hx | hx
      · exact .inr ⟨x, hx, (hother x hx).1 hname⟩
      · rw [List.mem_singleton] at hx
        exact .inl (hx ▸ hname)
    · rintro (hname | ⟨x, hx, hname⟩)
      · exact ⟨element, by simp, hname⟩
      · exact ⟨x, List.mem_append_left _ hx, (hother x hx).2 hname⟩
  constructor
  · intro h
    have hlength := hstores.1 h.stores
    exact ⟨hlength, (hparts hlength).1 (hcheck.1 h.check)⟩
  · rintro ⟨hlength, hname⟩
    exact ⟨hstores.2 hlength, hcheck.2 ((hparts hlength).2 hname), hwords.1, hwords.2⟩

/-- The same where the low byte of `cr3` is zero, as it is in the address of a table: a name of 256
characters is still found, since that byte is then its terminator, and a longer one is not. -/
theorem drop_name_prefix_iff (hcr3 : cr3.toNat % 256 = 0) (handler : UInt64) (name : CString) :
    (name.bytes ++ [0]).drop nameSize <+: bytes 8 cr3.toNat ++ bytes 8 handler.toNat ↔
      name.bytes.length ≤ 256 := by
  have hzero : UInt8.ofNat cr3.toNat = 0 := by
    rw [← UInt8.toNat_inj, UInt8.toNat_ofNat']
    exact hcr3
  rw [bytes_cons, hzero, List.cons_append]
  rcases Nat.lt_trichotomy name.bytes.length 256 with hlt | heq | hgt
  · rw [List.drop_eq_nil_of_le (by simpa [nameSize] using hlt)]
    exact iff_of_true List.nil_prefix hlt.le
  · rw [List.drop_append_of_le_length (by simp [nameSize, heq]),
      List.drop_eq_nil_of_le (by simp [nameSize, heq])]
    exact iff_of_true (by simp) heq.le
  · rw [List.drop_append_of_le_length (by simp only [nameSize]; omega)]
    refine iff_of_false (fun h => ?_) (by omega)
    rw [List.drop_eq_getElem_cons (by simpa [nameSize] using hgt), List.cons_append,
      List.cons_prefix_cons] at h
    exact name.nul_free (h.1 ▸ List.getElem_mem _)

/-- Up to 255 characters the memory goes on to have the elements of the registry. -/
theorem Represents.registerListener (h : Represents s t xs) (hfresh : element ∉ s.listeners :: xs)
    (hdisjoint : ∀ x ∈ xs, Disjoint (block x) (block element)) (hlength : name.bytes.length ≤ 255)
    (hnames : ∀ x ∈ xs, (t.element x).name.bytes.length ≤ 255) :
    ∃ t', Naul.registerListener element cr3 handler name t = some t' ∧
      Represents (s.registerListener element cr3 handler name) t' (xs ++ [element]) := by
  have hregister : Naul.registerListener element cr3 handler name t =
      some (linkListener element { t with
        element := Function.update t.element element ⟨name, cr3, handler⟩ }) := by
    simp only [Naul.registerListener, Naul.fillListener_eq hlength, bind, Option.bind_some, pure]
  have hwords := words_right s element cr3 handler name
  have hself : (s.registerListener element cr3 handler name).HasName name element := by
    rw [hasName_self_iff s (by omega), List.drop_eq_nil_of_le]
    · exact List.nil_prefix
    · rw [List.length_append, List.length_singleton, nameSize]
      omega
  have hother : ∀ x ∈ xs, Function.update t.element element ⟨name, cr3, handler⟩ x = t.element x := by
    intro x hx
    apply Function.update_of_ne
    rintro rfl
    exact hfresh (List.mem_cons_of_mem _ hx)
  have hlength' : name.bytes.length ≤ 271 := by omega
  refine ⟨_, hregister, h.listeners, ?_, isRing_linkList h.ring hfresh, ?_, ?_, ?_⟩
  · simp only [ListenerMemory.registerListener, linkListener, h.links, h.listeners]
  all_goals
    intro x hx
    simp only [linkListener]
    rcases List.mem_append.1 hx with hx | hx
  · rw [hother x hx]
    have hname := hnames x hx
    exact ((registerListener_frame (hdisjoint x hx) hlength').1 _ (by omega)).2 (h.name x hx)
  · rw [List.mem_singleton] at hx
    rw [hx, Function.update_self]
    exact hself
  · rw [hother x hx, (registerListener_frame (hdisjoint x hx) hlength').2.1, h.paging x hx]
  · rw [List.mem_singleton] at hx
    rw [hx, Function.update_self, hwords.1]
  · rw [hother x hx, (registerListener_frame (hdisjoint x hx) hlength').2.2, h.handler x hx]
  · rw [List.mem_singleton] at hx
    rw [hx, Function.update_self, hwords.2]

/-! ### An empty registry -/

/-- `"a…a"`. -/
def repeated (n : ℕ) : CString := ⟨List.replicate n 97, by simp [List.mem_replicate]⟩

@[simp] theorem length_repeated (n : ℕ) : (repeated n).bytes.length = n := List.length_replicate

def empty : ListenerMemory := ⟨0, emptyRing UInt64, ⟨fun _ => 0, []⟩⟩

/-- A name of 255 characters is safe. -/
theorem registerListener_safe_full :
    Safe empty (registerListener 4096 8192 12288 (repeated 255) empty) 4096 8192 12288 (repeated 255) :=
  (registerListener_safe_iff (isRing_emptyRing _) (by decide) (by simp) 8192 12288 (repeated 255)).2
    ⟨by simp, .inl ((drop_name_prefix_iff (by decide) 12288 _).2 (by simp))⟩

/-- One of 257 characters is not found, and one of 272 characters is stored to the byte behind the
element. -/
theorem registerListener_long :
    (¬ ∃ fuel, checkListener fuel (repeated 257)
      (registerListener 4096 8192 12288 (repeated 257) empty) = some true) ∧
    ¬ Cells.StoresIn (block 4096) empty.memory
      (registerListener 4096 8192 12288 (repeated 272) empty).memory := by
  have hring := isRing_linkList (isRing_emptyRing (0 : UInt64)) (e := 4096) (by decide)
  constructor
  · rw [checkListener_true_iff (s := registerListener 4096 8192 12288 (repeated 257) empty) hring]
    rintro ⟨x, hx, hname⟩
    obtain rfl : x = 4096 := by simpa using hx
    rw [hasName_self_iff empty (by simp), drop_name_prefix_iff (by decide)] at hname
    simp at hname
  · intro h
    have hlength := (storesIn_block_iff 4096 8192 12288 (repeated 272) empty.memory).1 h
    simp at hlength

end ListenerMemory

end Naul
