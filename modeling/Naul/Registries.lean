import Naul.Filesystem
import Naul.Hpet.Timer
import Naul.Mem

/-!
# Removal from a registry (`os/src/ipc.c`, `keyboard.c`, `mouse.c`, `filesystem.c`, `hpet.c`)

Five operations take an element out of a registry's ring: `deleteFile`, `unregisterListener`,
`unregisterKeyboard`, `unregisterMouse` and `cancelWait`. Each searches the ring and unlinks what the
search variable points to afterwards. That is the sentinel when no element has the key.

`ring_kept_iff` says for all of them when such a removal leaves the ring as it was.
-/

namespace Naul

open LinkRing

/-- The fields of a `ListenerElement` after its header; `paging` is the `cr3` of the process that
registered `handler`. -/
structure ListenerElement where
  name : CString
  paging : UInt64
  handler : UInt64

/-- The variable `listeners` and the memory its elements are in. -/
structure Listeners where
  listeners : UInt64
  links : Links UInt64
  element : UInt64 → ListenerElement

/-- The part of `unregisterListener(handler)` under the lock, where `cr3` is `paging`: the element
found, which the rest of the function frees, and the registry without it. -/
def unregisterListener (fuel : ℕ) (paging handler : UInt64) (s : Listeners) :
    Option (UInt64 × Listeners) := do
  let (element, links) ← unlinkFound fuel s.links s.listeners
    fun e => (s.element e).paging = paging && (s.element e).handler = handler
  return (element, { s with links := links })

/-- `checkListener(name)`. -/
def checkListener (fuel : ℕ) (name : CString) (s : Listeners) : Option Bool :=
  WhileLoop.run (iterate s.links s.listeners
    (fun (_ : Unit) e =>
      if compareStrings name.bytes (s.element e).name.bytes = 0 then .inr true else .inl ())
    fun _ => false) fuel ((), s.listeners)

/-- The variable `keyboardBuffers` or `mouseBuffers` and the memory its elements are in; an element
holds the physical address of a process's buffer. -/
structure Buffers where
  head : UInt64
  links : Links UInt64
  buffer : UInt64 → UInt64

/-- The common part of `unregisterKeyboard` and `unregisterMouse`, for a buffer at a physical
address. -/
def unregisterBuffer (fuel : ℕ) (address : UInt64) (s : Buffers) : Option (UInt64 × Buffers) := do
  let (element, links) ← unlinkFound fuel s.links s.head fun e => s.buffer e = address
  return (element, { s with links := links })

/-- `unregisterKeyboard(buffer)` up to `unlock`, where `memory` holds the page tables under `cr3`. -/
def unregisterKeyboard (fuel : ℕ) (memory : Cells UInt64) (cr3 buffer : UInt64)
    (keyboardBuffers : Buffers) : Option (UInt64 × Buffers) :=
  unregisterBuffer fuel (getAddress memory cr3 buffer) keyboardBuffers

/-- `unregisterMouse(buffer)` up to `unlock`. -/
def unregisterMouse (fuel : ℕ) (memory : Cells UInt64) (cr3 buffer : UInt64)
    (mouseBuffers : Buffers) : Option (UInt64 × Buffers) :=
  unregisterBuffer fuel (getAddress memory cr3 buffer) mouseBuffers

/-- A removal from a registry, with the registry it is made from. -/
inductive Removal
  | deleteFile (fs : Filesystem) (name : CString)
  | unregisterListener (s : Listeners) (paging handler : UInt64)
  | unregisterKeyboard (s : Buffers) (memory : Cells UInt64) (cr3 buffer : UInt64)
  | unregisterMouse (s : Buffers) (memory : Cells UInt64) (cr3 buffer : UInt64)
  | cancelWait (h : Hpet) (id value : UInt64)

namespace Removal

/-- The sentinel of the registry. -/
def head : Removal → UInt64
  | deleteFile fs _ => fs.files
  | unregisterListener s _ _ => s.listeners
  | unregisterKeyboard s _ _ _ => s.head
  | unregisterMouse s _ _ _ => s.head
  | cancelWait h _ _ => h.sleepingList

/-- The links of the registry before the removal. -/
def links : Removal → Links UInt64
  | deleteFile fs _ => fs.links
  | unregisterListener s _ _ => s.links
  | unregisterKeyboard s _ _ _ => s.links
  | unregisterMouse s _ _ _ => s.links
  | cancelWait h _ _ => h.links

/-- The element has the key. -/
def Matches (e : UInt64) : Removal → Prop
  | deleteFile fs name => fs.nameOf e = name
  | unregisterListener s paging handler =>
    (s.element e).paging = paging ∧ (s.element e).handler = handler
  | unregisterKeyboard s memory cr3 buffer => s.buffer e = getAddress memory cr3 buffer
  | unregisterMouse s memory cr3 buffer => s.buffer e = getAddress memory cr3 buffer
  | cancelWait h id _ => h.id (h.entry e).thread = id

/-- The links of the registry after the removal; `none` while it has not returned. -/
def perform (fuel : ℕ) : Removal → Option (Links UInt64)
  | deleteFile fs name => (fs.unlinkFile fuel name).map fun r => r.2.links
  | unregisterListener s paging handler =>
    (Naul.unregisterListener fuel paging handler s).map fun r => r.2.links
  | unregisterKeyboard s memory cr3 buffer =>
    (Naul.unregisterKeyboard fuel memory cr3 buffer s).map fun r => r.2.links
  | unregisterMouse s memory cr3 buffer =>
    (Naul.unregisterMouse fuel memory cr3 buffer s).map fun r => r.2.links
  | cancelWait h id value => (h.cancelWait fuel id value).map fun h => h.links

end Removal

namespace Removal

/-- The four removals that only unlink what they find. -/
theorem unlinkFound_kept_iff {β : Type} {l : Links UInt64} {head : UInt64} {xs : List UInt64}
    (h : IsRing l head xs) {p : UInt64 → Bool} (hp : ∀ x ∈ xs, p x = false)
    {perform : ℕ → Option β} {links : β → Links UInt64}
    (hperform : ∀ fuel, (perform fuel).map links = (unlinkFound fuel l head p).map fun r => r.2) :
    (∃ fuel l', (perform fuel).map links = some l' ∧ IsRing l' head xs) ↔ xs = [] := by
  rw [← unlinkFound_absent_iff h hp]
  constructor
  · rintro ⟨fuel, l', hrun, hring⟩
    rw [hperform, Option.map_eq_some_iff] at hrun
    obtain ⟨⟨e, l'⟩, hfound, rfl⟩ := hrun
    exact ⟨fuel, e, l', hfound, hring⟩
  · rintro ⟨fuel, e, l', hfound, hring⟩
    exact ⟨fuel, l', by rw [hperform, hfound, Option.map_some], hring⟩

/-- **When removing an absent element is harmless.** A removal whose key no element has returns with
the ring as it was exactly when the ring has no elements. -/
theorem ring_kept_iff (r : Removal) {xs : List UInt64} (h : IsRing r.links r.head xs)
    (habsent : ∀ x ∈ xs, ¬ r.Matches x) :
    (∃ fuel l, r.perform fuel = some l ∧ IsRing l r.head xs) ↔ xs = [] := by
  cases r with
  | deleteFile fs name =>
    refine unlinkFound_kept_iff h (p := fun file =>
      decide (compareStrings name.bytes (fs.nameOf file).bytes = 0)) (fun x hx => ?_) fun fuel => ?_
    · rw [decide_eq_false_iff_not, compareStrings_eq_zero name.nul_free (fs.nameOf x).nul_free]
      exact fun heq => habsent x hx (CString.ext heq.symm)
    · simp only [Filesystem.unlinkFile, links, head, bind, Option.map_bind]
      cases unlinkFound fuel fs.links fs.files _ <;> rfl
  | unregisterListener s paging handler =>
    refine unlinkFound_kept_iff h (p := fun e =>
      decide ((s.element e).paging = paging) && decide ((s.element e).handler = handler))
      (fun x hx => ?_) fun fuel => ?_
    · rw [← Bool.not_eq_true, Bool.and_eq_true, decide_eq_true_eq, decide_eq_true_eq]
      exact habsent x hx
    · simp only [Naul.unregisterListener, links, head, bind, Option.map_bind]
      cases unlinkFound fuel s.links s.listeners _ <;> rfl
  | unregisterKeyboard s memory cr3 buffer | unregisterMouse s memory cr3 buffer =>
    refine unlinkFound_kept_iff h (p := fun e =>
      decide (s.buffer e = getAddress memory cr3 buffer)) (fun x hx => ?_) fun fuel => ?_
    · exact decide_eq_false (habsent x hx)
    · simp only [Naul.unregisterKeyboard, Naul.unregisterMouse, unregisterBuffer, links, head, bind,
        Option.map_bind]
      cases unlinkFound fuel s.links s.head _ <;> rfl
  | cancelWait h' id value =>
    rw [← Hpet.cancelWait_absent_iff h habsent value]
    constructor
    · rintro ⟨fuel, l, hrun, hring⟩
      obtain ⟨h'', hrun', rfl⟩ := Option.map_eq_some_iff.1 hrun
      exact ⟨fuel, h'', hrun', hring⟩
    · rintro ⟨fuel, h'', hrun, hring⟩
      exact ⟨fuel, h''.links, by rw [perform, hrun, Option.map_some], hring⟩

/-- Deleting a file from an empty filesystem. -/
theorem ring_kept_empty :
    ∃ fuel l, (deleteFile ⟨0, ⟨fun _ => 0, fun _ => 0⟩, fun _ => ⟨0, 0, 0⟩, fun _ => ⟨[], by decide⟩⟩
      Filesystem.folderName).perform fuel = some l ∧ IsRing l 0 [] :=
  (ring_kept_iff (deleteFile ⟨0, ⟨fun _ => 0, fun _ => 0⟩, fun _ => ⟨0, 0, 0⟩,
    fun _ => ⟨[], by decide⟩⟩ Filesystem.folderName)
    ⟨List.nodup_singleton _, by simp [links, head, Linked]⟩ (by simp)).2 rfl

/-- After `deleteFile` of an absent name the only other file is no longer in a ring: no traversal of
the list ends. -/
theorem deleteFile_absent_breaks_ring :
    let r := deleteFile (Filesystem.oneFile Filesystem.folderName) Filesystem.siblingName
    IsRing r.links r.head [1] ∧ ¬ r.Matches 1 ∧
      ∃ l, r.perform 2 = some l ∧ ¬ IsRing l r.head [1] ∧ ∀ fuel, listLength fuel l r.head = none := by
  have h := Filesystem.oneFile_isRing Filesystem.folderName
  refine ⟨h, by simp [Matches, Filesystem.nameOf, Filesystem.oneFile, Filesystem.folderName,
    Filesystem.siblingName], unlinkList (Filesystem.oneFile Filesystem.folderName).links 0, rfl,
    ?_, fun fuel => ?_⟩
  · rw [head, show (Filesystem.oneFile Filesystem.folderName).files = 0 from rfl]
    intro hring
    cases (isRing_unlinkList_head h).1 hring
  · exact traversal_diverges h (by simp) (fun n _ => n + 1) _ 0 fuel

end Removal

end Naul
