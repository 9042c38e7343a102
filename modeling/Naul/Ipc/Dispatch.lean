import Naul.Ipc

/-!
# Messages while listeners come and go

`sendMessage` looks for an element of the ring under `ipcLock`, and reads the fields of the element it
has found after `unlock`. `unregisterListener` in another thread may take the element out and free it
in between, and whoever allocates the block next may store into it.

Each section under the lock is one step; so is each access to an element outside of it. `blocks` are
the blocks of the allocator that are elements or are about to be, and the threads store what they like
to any other address (`store`). `found` is a ghost: the element that a lookup has found, with its
contents at that time. `dispatch_safe_iff` says that every message gets the handler and the tables of
what it has found if and only if no element is freed that a message still has to read.
-/

namespace Naul

open LinkRing

namespace Dispatch

/-- What a lookup of `name` has found. -/
structure Found where
  name : CString
  element : UInt64
  contents : ListenerElement

/-- Where a thread is. In `registerListener`: before the stores to the element, and before `lock`. In
`unregisterListener`: before `unallocate`. In `sendMessage`: before the load of `cr3`, and before the
call. -/
inductive Doing
  | idle
  | fill (element paging handler : UInt64) (name : CString)
  | link (element : UInt64)
  | free (element : UInt64)
  | paging (found : Found)
  | handler (found : Found) (paging : UInt64)

/-- The element that the thread alone has: it is not on the ring yet, or no more. -/
def Doing.own : Doing → Option UInt64
  | .fill element _ _ _ | .link element | .free element => some element
  | .idle | .paging _ | .handler _ _ => none

/-- What the thread still has to read. -/
def Doing.reading : Doing → Option Found
  | .paging found | .handler found _ => some found
  | .idle | .fill _ _ _ _ | .link _ | .free _ => none

/-- A call: the tables it was made under, and the handler. -/
structure Called where
  found : Found
  paging : UInt64
  handler : UInt64

end Dispatch

/-- The registry, the blocks of its elements, the threads, and the calls that have been made. -/
structure Dispatch where
  registry : Listeners
  blocks : Finset UInt64
  doing : ℕ → Dispatch.Doing
  called : List Dispatch.Called

namespace Dispatch

inductive Event
  /-- `registerListener(handler, name)` in thread `t`, where `allocate` has returned `element`. -/
  | registerListener (t : ℕ) (element paging handler : UInt64) (name : CString)
  /-- `unregisterListener(handler)`, as far as `unlock`. -/
  | unregisterListener (t : ℕ) (paging handler : UInt64)
  /-- `sendMessage(name, …)`, as far as `unlock`. -/
  | sendMessage (t : ℕ) (name : CString)
  /-- Thread `t` goes on with what it is doing. -/
  | advance (t : ℕ)
  /-- Some thread stores into memory that is not the registry's. -/
  | store (address : UInt64) (contents : ListenerElement)

def goto (t : ℕ) (d : Doing) (s : Dispatch) : Dispatch :=
  { s with doing := Function.update s.doing t d }

def advance (t : ℕ) (s : Dispatch) : Option Dispatch :=
  match s.doing t with
  | .idle => none
  | .fill element paging handler name => do
    let registry ← fillListener element paging handler name s.registry
    return { s with registry }.goto t (.link element)
  | .link element => some ({ s with registry := linkListener element s.registry }.goto t .idle)
  | .free element => some ({ s with blocks := s.blocks.erase element }.goto t .idle)
  | .paging found => some (s.goto t (.handler found (s.registry.element found.element).paging))
  | .handler found paging =>
    some { s.goto t .idle with
      called := ⟨found, paging, (s.registry.element found.element).handler⟩ :: s.called }

def step (fuel : ℕ) (s : Dispatch) : Event → Option Dispatch
  | .registerListener t element paging handler name =>
    match s.doing t with
    | .idle =>
      some ({ s with blocks := insert element s.blocks }.goto t (.fill element paging handler name))
    | _ => none
  | .unregisterListener t paging handler =>
    match s.doing t with
    | .idle => do
      let (element, registry) ← Naul.unregisterListener fuel paging handler s.registry
      return { s with registry }.goto t (.free element)
    | _ => none
  | .sendMessage t name =>
    match s.doing t with
    | .idle => do
      let element ← findListener fuel name s.registry
      return s.goto t (.paging ⟨name, element, s.registry.element element⟩)
    | _ => none
  | .advance t => s.advance t
  | .store address contents =>
    if address ∈ s.blocks then none
    else some { s with
      registry := { s.registry with
        element := Function.update s.registry.element address contents } }

/-! ### The invariant -/

/-- The nodes `xs` are the registered elements. -/
structure Registry (s : Dispatch) (xs : List UInt64) : Prop where
  ring : IsRing s.registry.links s.registry.listeners xs
  blocks : ∀ x ∈ xs, x ∈ s.blocks
  apart : ∀ x ∈ xs, ∀ t, (s.doing t).own ≠ some x

/-- The element of a thread that is going to read from it is an element of the name it has looked up,
has not been freed, and has the contents it had. -/
def Intact (s : Dispatch) (found : Found) : Prop :=
  found.element ≠ s.registry.listeners ∧ found.contents.name = found.name ∧
    found.element ∈ s.blocks ∧ s.registry.element found.element = found.contents

/-- Every message has, or gets, the tables and the handler of one listener that was registered under
its name when it looked. -/
structure Safe (s : Dispatch) : Prop where
  reading : ∀ t found, (s.doing t).reading = some found → s.Intact found
  called : ∀ c ∈ s.called, c.found.element ≠ s.registry.listeners ∧
    c.found.contents.name = c.found.name ∧ c.paging = c.found.contents.paging ∧
      c.handler = c.found.contents.handler

structure Inv (s : Dispatch) : Prop where
  registry : ∃ xs, s.Registry xs
  own : ∀ t e, (s.doing t).own = some e → e ∈ s.blocks ∧ e ≠ s.registry.listeners
  alone : ∀ t u e, (s.doing t).own = some e → (s.doing u).own = some e → t = u
  unfilled : ∀ t u e p h name found, s.doing t = .fill e p h name →
    (s.doing u).reading = some found → found.element ≠ e
  paging : ∀ t found p, s.doing t = .handler found p → p = found.contents.paging
  safe : s.Safe

/-- The blocks the allocator returns are no elements; a handler that is unregistered, and a name that is
sent to, has been registered; and names fit. -/
def Proper (s : Dispatch) : Event → Prop
  | .registerListener _ element _ _ name =>
    element ∉ s.blocks ∧ element ≠ s.registry.listeners ∧ name.bytes.length ≤ 255
  | .unregisterListener _ paging handler => ∀ xs, s.Registry xs →
    ∃ x ∈ xs, (s.registry.element x).paging = paging ∧ (s.registry.element x).handler = handler
  | .sendMessage _ name => ∀ xs, s.Registry xs → ∃ x ∈ xs, (s.registry.element x).name = name
  | .advance _ | .store _ _ => True

/-- If the step is the `unallocate` of an element, no message still has to read it. -/
def Spares (s : Dispatch) : Event → Prop
  | .advance t => ∀ e, s.doing t = .free e →
    ∀ u found, (s.doing u).reading = some found → found.element ≠ e
  | _ => True

variable {s s' : Dispatch} {t u fuel : ℕ} {d : Doing} {e a : UInt64} {xs : List UInt64} {found : Found}
  {event : Event}

theorem goto_doing (s : Dispatch) (t u : ℕ) (d : Doing) :
    (s.goto t d).doing u = if u = t then d else s.doing u := Function.update_apply ..

/-! ### What a step changes -/

/-- A thread goes on without anything new in hand. -/
theorem Inv.goto (h : s.Inv) (hown : ∀ e, d.own = some e → (s.doing t).own = some e)
    (hreading : ∀ found, d.reading = some found → s.Intact found)
    (hunfilled : ∀ found, d.reading = some found → ∀ u e p h name, s.doing u = .fill e p h name →
      found.element ≠ e)
    (hfill : ∀ e p h name, d ≠ .fill e p h name)
    (hpaging : ∀ found p, d = .handler found p → p = found.contents.paging) : (s.goto t d).Inv := by
  have hown' : ∀ u e, ((s.goto t d).doing u).own = some e → (s.doing u).own = some e := by
    intro u e hu
    rw [goto_doing] at hu
    split_ifs at hu with hut
    · exact hut ▸ hown e hu
    · exact hu
  refine ⟨?_, fun u e hu => h.own u e (hown' u e hu), fun u v e hu hv => ?_, ?_, fun u found p hu => ?_,
    fun u found hu => ?_, h.safe.called⟩
  · obtain ⟨xs, hxs⟩ := h.registry
    exact ⟨xs, hxs.ring, hxs.blocks, fun x hx u hu => hxs.apart x hx u (hown' u x hu)⟩
  · exact h.alone u v e (hown' u e hu) (hown' v e hv)
  · intro u v e p handler name found hu hv
    rw [goto_doing] at hu hv
    split_ifs at hu with hut
    · exact absurd hu (hfill e p handler name)
    · split_ifs at hv with hvt
      · exact hunfilled found hv u e p handler name hu
      · exact h.unfilled u v e p handler name found hu hv
  · rw [goto_doing] at hu
    split_ifs at hu with hut
    · exact hpaging found p hu
    · exact h.paging u found p hu
  · rw [goto_doing] at hu
    split_ifs at hu with hut
    · exact hreading found hu
    · exact h.safe.reading u found hu

/-- A thread takes a block that is on no ring and in nobody's hand. -/
theorem Inv.take (h : s.Inv) (hd : d.own = some e) (hreading : d.reading = none) (hblock : e ∈ s.blocks)
    (hne : e ≠ s.registry.listeners) (hfree : ∀ u, (s.doing u).own ≠ some e)
    (hring : ∃ xs, s.Registry xs ∧ e ∉ xs)
    (hunread : ∀ p h name, d = .fill e p h name → ∀ u found, (s.doing u).reading = some found →
      found.element ≠ e) : (s.goto t d).Inv := by
  have hown : ∀ u f, ((s.goto t d).doing u).own = some f →
      u = t ∧ f = e ∨ u ≠ t ∧ (s.doing u).own = some f := by
    intro u f hu
    rw [goto_doing] at hu
    split_ifs at hu with hut
    · exact Or.inl ⟨hut, Option.some.inj (hu.symm.trans hd)⟩
    · exact Or.inr ⟨hut, hu⟩
  have hold : ∀ u found, ((s.goto t d).doing u).reading = some found →
      (s.doing u).reading = some found := by
    intro u found hu
    rw [goto_doing] at hu
    split_ifs at hu with hut
    · rw [hreading] at hu
      cases hu
    · exact hu
  refine ⟨?_, fun u f hu => ?_, fun u v f hu hv => ?_, ?_, fun u found p hu => ?_,
    fun u found hu => h.safe.reading u found (hold u found hu), h.safe.called⟩
  · obtain ⟨xs, hxs, he⟩ := hring
    refine ⟨xs, hxs.ring, hxs.blocks, fun x hx u hu => ?_⟩
    rcases hown u x hu with ⟨-, rfl⟩ | ⟨-, hu⟩
    · exact he hx
    · exact hxs.apart x hx u hu
  · rcases hown u f hu with ⟨-, rfl⟩ | ⟨-, hu⟩
    · exact ⟨hblock, hne⟩
    · exact h.own u f hu
  · rcases hown u f hu with ⟨rfl, rfl⟩ | ⟨-, hu'⟩ <;> rcases hown v _ hv with ⟨rfl, heq⟩ | ⟨-, hv'⟩
    · rfl
    · exact absurd hv' (hfree v)
    · exact absurd (heq ▸ hu') (hfree u)
    · exact h.alone u v f hu' hv'
  · intro u v f p handler name found hu hv
    have hv' := hold v found hv
    rw [goto_doing] at hu
    split_ifs at hu with hut
    · subst hu
      obtain rfl := Option.some.inj hd
      exact hunread p handler name rfl v found hv'
    · exact h.unfilled u v f p handler name found hu hv'
  · rw [goto_doing] at hu
    split_ifs at hu with hut
    · subst hu
      cases hreading
    · exact h.paging u found p hu

/-- The registry's memory changes where nobody reads it. -/
theorem Inv.store (h : s.Inv) (contents : ListenerElement)
    (hunread : ∀ u found, (s.doing u).reading = some found → found.element ≠ a) :
    Inv { s with registry := { s.registry with
      element := Function.update s.registry.element a contents } } := by
  refine ⟨?_, h.own, h.alone, h.unfilled, h.paging, fun u found hu => ?_, h.safe.called⟩
  · obtain ⟨xs, hxs⟩ := h.registry
    exact ⟨xs, hxs.ring, hxs.blocks, hxs.apart⟩
  · obtain ⟨hne, hname, hblock, hsame⟩ := h.safe.reading u found hu
    exact ⟨hne, hname, hblock, (Function.update_of_ne (hunread u found hu) ..).trans hsame⟩

/-- The links change, and with them the elements of the ring. -/
theorem Inv.relink (h : s.Inv) {links : Links UInt64}
    (hregistry : ∃ xs, Registry { s with registry := { s.registry with links } } xs) :
    Inv { s with registry := { s.registry with links } } :=
  ⟨hregistry, h.own, h.alone, h.unfilled, h.paging, h.safe.reading, h.safe.called⟩

/-- The blocks of the registry change, but for what is in use. -/
theorem Inv.blocks (h : s.Inv) {blocks : Finset UInt64} (hregistry : ∃ xs, Registry { s with blocks } xs)
    (hown : ∀ u e, (s.doing u).own = some e → e ∈ blocks)
    (hreading : ∀ u found, (s.doing u).reading = some found → found.element ∈ blocks) :
    Inv { s with blocks } := by
  refine ⟨hregistry, fun u e hu => ⟨hown u e hu, (h.own u e hu).2⟩, h.alone, h.unfilled, h.paging,
    fun u found hu => ?_, h.safe.called⟩
  obtain ⟨hne, hname, -, hsame⟩ := h.safe.reading u found hu
  exact ⟨hne, hname, hreading u found hu, hsame⟩

/-! ### Steps -/

/-- A lookup of a registered name finds an element of the ring that has it. -/
theorem findListener_spec (h : s.Registry xs) {name : CString} (hmem : ∃ x ∈ xs, (s.registry.element x).name = name)
    (hfind : findListener fuel name s.registry = some e) :
    e ∈ xs ∧ (s.registry.element e).name = name := by
  obtain ⟨x, hx, hname⟩ := hmem
  have hfound := findElement_eq h.ring
    fun e => decide (compareStrings (s.registry.element e).name.bytes name.bytes = 0)
  have heq := WhileLoop.run_unique hfind hfound
  simp only [compareStrings_eq_zero_iff, eq_comm (a := name)] at heq
  cases hsearch : xs.find? (fun e => decide ((s.registry.element e).name = name)) with
  | none => exact absurd (decide_eq_true hname) (List.find?_eq_none.1 hsearch x hx)
  | some y =>
    rw [hsearch, Option.getD_some] at heq
    subst heq
    exact ⟨List.mem_of_find?_eq_some hsearch, by simpa using List.find?_some hsearch⟩

/-- `unregisterListener` of a registered handler takes an element out of the ring. -/
theorem unregisterListener_spec (h : s.Registry xs) {paging handler : UInt64} {registry : Listeners}
    (hmem : ∃ x ∈ xs, (s.registry.element x).paging = paging ∧ (s.registry.element x).handler = handler)
    (hrun : Naul.unregisterListener fuel paging handler s.registry = some (e, registry)) :
    ∃ ys zs, xs = ys ++ e :: zs ∧
      registry = { s.registry with links := unlinkList s.registry.links e } := by
  obtain ⟨x, hx, hkey⟩ := hmem
  simp only [Naul.unregisterListener, unlinkFound, bind, Option.bind_eq_some_iff, pure,
    Option.some.injEq, Prod.mk.injEq] at hrun
  obtain ⟨-, ⟨y, hy, rfl⟩, rfl, rfl⟩ := hrun
  have heq := WhileLoop.run_unique hy (findElement_eq h.ring _)
  cases hsearch : xs.find? (fun e => decide ((s.registry.element e).paging = paging) &&
      decide ((s.registry.element e).handler = handler)) with
  | none => exact absurd (by simp [hkey]) (List.find?_eq_none.1 hsearch x hx)
  | some z =>
    rw [hsearch, Option.getD_some] at heq
    subst heq
    obtain ⟨ys, zs, hsplit⟩ := List.append_of_mem (List.mem_of_find?_eq_some hsearch)
    exact ⟨ys, zs, hsplit, rfl⟩

theorem Inv.idle (h : s.Inv) : (s.goto t .idle).Inv :=
  h.goto (fun _ he => by cases he) (fun _ hf => by cases hf) (fun _ hf => by cases hf)
    (fun _ _ _ _ he => by cases he) fun _ _ he => by cases he

theorem Registry.idle (h : s.Registry xs) : (s.goto t .idle).Registry xs := by
  refine ⟨h.ring, h.blocks, fun x hx u hu => ?_⟩
  rw [goto_doing] at hu
  split_ifs at hu with hut
  · cases hu
  · exact h.apart x hx u hu

theorem reading_idle {f : Found} (hu : ((s.goto t .idle).doing u).reading = some f) :
    (s.doing u).reading = some f := by
  rw [goto_doing] at hu
  split_ifs at hu with hut
  · cases hu
  · exact hu

/-- When the thread that has a block lets go of it, nobody has it. -/
theorem Inv.idle_own (h : s.Inv) (ht : (s.doing t).own = some e) (u : ℕ) :
    ((s.goto t .idle).doing u).own ≠ some e := by
  rw [goto_doing]
  split_ifs with hut
  · exact Option.some_ne_none e ∘ Eq.symm
  · exact fun hu => hut (h.alone u t e hu ht)

theorem inv_advance (h : s.Inv) (hspares : s.Spares (.advance t)) (hstep : s.advance t = some s') :
    s'.Inv := by
  obtain ⟨xs, hxs⟩ := h.registry
  unfold advance at hstep
  split at hstep <;> rename_i hd
  · cases hstep
  · -- the fields of the new element are filled in
    rename_i element paging handler name
    simp only [bind, Option.bind_eq_some_iff, pure, Option.some.injEq] at hstep
    obtain ⟨registry, hfill, rfl⟩ := hstep
    obtain rfl := fillListener_some hfill
    have hstore := h.store ⟨name, paging, handler⟩
      fun u found hu => h.unfilled t u element paging handler name found hd hu
    refine hstore.goto (fun e he => ?_) (fun _ hf => by cases hf) (fun _ hf => by cases hf)
      (fun _ _ _ _ he => by cases he) fun _ _ he => by cases he
    show (s.doing t).own = some e
    rw [hd]
    exact he
  · rename_i element
    obtain rfl := Option.some.inj hstep
    have hown : (s.doing t).own = some element := by rw [hd]; rfl
    obtain ⟨hblock, hne⟩ := h.own t element hown
    -- the thread that has the block is the only one, and so it is not linked yet
    have hfresh : element ∉ s.registry.listeners :: xs := by
      rw [List.mem_cons, not_or]
      exact ⟨hne, fun hmem => hxs.apart element hmem t hown⟩
    refine (h.idle (t := t)).relink ⟨xs ++ [element], isRing_linkList hxs.ring hfresh, fun x hx => ?_,
      fun x hx u hu => ?_⟩
    · rcases List.mem_append.1 hx with hx | hx
      · exact hxs.blocks x hx
      · exact List.mem_singleton.1 hx ▸ hblock
    · rcases List.mem_append.1 hx with hx | hx
      · exact hxs.idle.apart x hx u hu
      · exact h.idle_own (List.mem_singleton.1 hx ▸ hown) u hu
  · rename_i element
    obtain rfl := Option.some.inj hstep
    have hown : (s.doing t).own = some element := by rw [hd]; rfl
    have hidle := h.idle (t := t)
    -- the block goes back to the allocator; nobody else has it, and no message has still to read it
    refine hidle.blocks ⟨xs, hxs.ring, fun x hx => ?_, fun x hx u hu => ?_⟩ (fun u e hu => ?_)
      fun u found hu => ?_
    · refine Finset.mem_erase.2 ⟨?_, hxs.blocks x hx⟩
      rintro rfl
      exact hxs.apart x hx t hown
    · exact hxs.idle.apart x hx u hu
    · refine Finset.mem_erase.2 ⟨?_, (hidle.own u e hu).1⟩
      rintro rfl
      exact h.idle_own hown u hu
    · have hfound := reading_idle hu
      exact Finset.mem_erase.2 ⟨hspares element hd u found hfound, (h.safe.reading u found hfound).2.2.1⟩
  · rename_i found
    obtain rfl := Option.some.inj hstep
    have hreading : (s.doing t).reading = some found := by rw [hd]; rfl
    have hintact := h.safe.reading t found hreading
    refine h.goto (fun _ he => by cases he) (fun f hf => ?_) (fun f hf u e p handler name hu => ?_)
      (fun _ _ _ _ he => by cases he) fun f p hf => ?_
    · cases hf
      exact hintact
    · cases hf
      exact h.unfilled u t e p handler name found hu hreading
    · cases hf
      rw [hintact.2.2.2]
  · rename_i found paging
    obtain rfl := Option.some.inj hstep
    have hintact := h.safe.reading t found (by rw [hd]; rfl)
    have hidle := h.idle (t := t)
    -- the handler has been called, with what the element contained when it was found
    have hregistry : (s.goto t .idle).Registry xs := hxs.idle
    refine ⟨⟨xs, hregistry.ring, hregistry.blocks, hregistry.apart⟩, hidle.own, hidle.alone,
      hidle.unfilled, hidle.paging, hidle.safe.reading, fun c hc => ?_⟩
    rcases List.mem_cons.1 hc with rfl | hc
    · exact ⟨hintact.1, hintact.2.1, h.paging t found paging hd, by rw [hintact.2.2.2]⟩
    · exact h.safe.called c hc

theorem inv_step (h : s.Inv) (hC : s.Proper event) (hspares : s.Spares event)
    (hstep : s.step fuel event = some s') : s'.Inv := by
  obtain ⟨xs, hxs⟩ := h.registry
  cases event with
  | registerListener t element paging handler name =>
    obtain ⟨hfresh, hne, -⟩ := hC
    simp only [step] at hstep
    split at hstep
    · obtain rfl := Option.some.inj hstep
      have hgrown : Inv { s with blocks := insert element s.blocks } :=
        h.blocks ⟨xs, hxs.ring, fun x hx => Finset.mem_insert_of_mem (hxs.blocks x hx), hxs.apart⟩
          (fun u e hu => Finset.mem_insert_of_mem (h.own u e hu).1)
          fun u found hu => Finset.mem_insert_of_mem (h.safe.reading u found hu).2.2.1
      refine hgrown.take rfl rfl (Finset.mem_insert_self ..) hne (fun u hu => ?_)
        ⟨xs, ⟨hxs.ring, fun x hx => Finset.mem_insert_of_mem (hxs.blocks x hx), hxs.apart⟩, ?_⟩ ?_
      · exact hfresh (h.own u element hu).1
      · exact fun hmem => hfresh (hxs.blocks element hmem)
      · rintro - - - - u found hu rfl
        exact hfresh (h.safe.reading u found hu).2.2.1
    · cases hstep
  | unregisterListener t paging handler =>
    simp only [step] at hstep
    split at hstep
    · simp only [bind, Option.bind_eq_some_iff, pure, Option.some.injEq] at hstep
      obtain ⟨⟨e, registry⟩, hunregister, rfl⟩ := hstep
      obtain ⟨ys, zs, rfl, rfl⟩ := unregisterListener_spec hxs (hC xs hxs) hunregister
      have hmem : e ∈ ys ++ e :: zs := List.mem_append_right _ List.mem_cons_self
      have hrest : ∀ x ∈ ys ++ zs, x ∈ ys ++ e :: zs := by
        intro x hx
        rw [List.mem_append] at hx ⊢
        exact hx.imp_right (List.mem_cons_of_mem _)
      -- the element is out of the ring, and in the hand of this thread
      have hregistry : Registry
          { s with registry := { s.registry with links := unlinkList s.registry.links e } } (ys ++ zs) :=
        ⟨isRing_unlinkList hxs.ring, fun x hx => hxs.blocks x (hrest x hx),
          fun x hx => hxs.apart x (hrest x hx)⟩
      have hnodup := (List.nodup_cons.1 hxs.ring.nodup).2
      rw [List.nodup_middle, List.nodup_cons] at hnodup
      refine (h.relink ⟨_, hregistry⟩).take (e := e) rfl rfl (hxs.blocks e hmem)
        (hxs.ring.ne_head hmem) (hxs.apart e hmem) ⟨_, hregistry, hnodup.1⟩ fun _ _ _ hfill => ?_
      cases hfill
    · cases hstep
  | sendMessage t name =>
    simp only [step] at hstep
    split at hstep
    · simp only [bind, Option.bind_eq_some_iff, pure, Option.some.injEq] at hstep
      obtain ⟨e, hfind, rfl⟩ := hstep
      obtain ⟨hmem, hname⟩ := findListener_spec hxs (hC xs hxs) hfind
      refine h.goto (fun _ he => by cases he) (fun f hf => ?_) (fun f hf u e p handler name hu => ?_)
        (fun _ _ _ _ he => by cases he) fun _ _ he => by cases he
      · cases hf
        exact ⟨hxs.ring.ne_head hmem, hname, hxs.blocks e hmem, rfl⟩
      · cases hf
        rintro rfl
        exact hxs.apart _ hmem u (by rw [hu]; rfl)
    · cases hstep
  | advance t => exact inv_advance h hspares hstep
  | store address contents =>
    simp only [step] at hstep
    split_ifs at hstep with hblock
    obtain rfl := Option.some.inj hstep
    -- the others store outside the blocks of the registry
    refine h.store contents fun u found hu => ?_
    rintro rfl
    exact hblock (h.safe.reading u found hu).2.2.1

/-- A step that frees an element that a message still has to read leaves the message without it. -/
theorem free_unsafe (hspares : ¬ s.Spares event) (hstep : s.step fuel event = some s') : ¬ s'.Safe := by
  cases event with
  | advance t =>
    simp only [Spares, not_forall, Classical.not_not, exists_prop] at hspares
    obtain ⟨e, hd, u, found, hu, rfl⟩ := hspares
    simp only [step, advance, hd, Option.some.injEq] at hstep
    subst hstep
    intro hsafe
    have hut : u ≠ t := by
      rintro rfl
      rw [hd] at hu
      cases hu
    have hintact := hsafe.reading u found (by rw [goto_doing, if_neg hut]; exact hu)
    exact Finset.notMem_erase _ _ hintact.2.2.1
  | registerListener | unregisterListener | sendMessage | store => exact absurd trivial hspares

/-- Nobody has called anything yet. -/
structure Started (s : Dispatch) : Prop where
  ring : IsRing s.registry.links s.registry.listeners []
  idle : ∀ t, s.doing t = .idle
  called : s.called = []

theorem Started.inv (h : s.Started) : s.Inv := by
  refine ⟨⟨[], h.ring, fun x hx => absurd hx List.not_mem_nil, fun x hx => absurd hx List.not_mem_nil⟩,
    fun t e he => ?_, fun t u e he => ?_, fun t u e p handler name found hd => ?_, fun t found p hd => ?_,
    fun t found hd => ?_, fun c hc => ?_⟩
  · rw [h.idle t] at he
    cases he
  · rw [h.idle t] at he
    cases he
  · rw [h.idle t] at hd
    cases hd
  · rw [h.idle t] at hd
    cases hd
  · rw [h.idle t] at hd
    cases hd
  · rw [h.called] at hc
    cases hc

/-- **When messages are safe.** In every state of a run every message that has looked up its name has,
or gets, the tables and the handler of one listener that was registered under it, if and only if no
`unregisterListener` frees an element that a message still has to read. -/
theorem dispatch_safe_iff {events : List Event} (hstart : s.Started)
    (hC : Trace.Along (step fuel) Proper s events) (hrun : Trace.run (step fuel) s events = some s') :
    (∀ es u, es <+: events → Trace.run (step fuel) s es = some u → u.Safe) ↔
      Trace.Along (step fuel) Spares s events :=
  Trace.forall_prefix_iff_along (fun _ h => h.safe) (fun _ _ _ => inv_step)
    (fun _ _ _ _ _ => free_unsafe) hstart.inv hC hrun

/-- No listeners and no messages. -/
def noMessages : Dispatch := ⟨Ipc.noListeners.registry, ∅, fun _ => .idle, []⟩

theorem noMessages_started : noMessages.Started := ⟨isRing_emptyRing 0, fun _ => rfl, rfl⟩

/-- Thread 1 registers the handler 7, and thread 2 looks its name up. -/
def lookup : List Event :=
  [.registerListener 1 8 1 7 Filesystem.folderName, .advance 1, .advance 1,
    .sendMessage 2 Filesystem.folderName]

theorem lookup_ring : IsRing (linkList (emptyRing UInt64) 0 8) 0 [8] :=
  isRing_linkList (isRing_emptyRing 0) (by decide)

theorem lookup_proper : Trace.Along (step 2) Proper noMessages lookup := by
  refine ⟨⟨Finset.notMem_empty _, by decide, by decide⟩, fun s₁ h₁ => ⟨trivial, fun s₂ h₂ =>
    ⟨trivial, fun s₃ h₃ => ⟨fun xs hxs => ?_, fun _ _ => trivial⟩⟩⟩⟩
  cases h₁
  cases h₂
  cases h₃
  obtain rfl := isRing_unique hxs.ring lookup_ring
  exact ⟨8, List.mem_singleton_self 8, rfl⟩

/-- The message is sent. -/
def delivered : List Event := lookup ++ [.advance 2, .advance 2]

theorem dispatch_safe_delivered : noMessages.Started ∧ ∀ es u, es <+: delivered →
    Trace.run (step 2) noMessages es = some u → u.Safe := by
  refine ⟨noMessages_started,
    (dispatch_safe_iff noMessages_started ((Trace.along_append ..).2 ⟨lookup_proper, ?_⟩) rfl).2 ?_⟩
  · exact fun _ _ => ⟨trivial, fun _ _ => ⟨trivial, fun _ _ => trivial⟩⟩
  · refine ⟨trivial, fun s₁ h₁ => ⟨?_, fun s₂ h₂ => ⟨?_, fun s₃ h₃ => ⟨trivial, fun s₄ h₄ =>
      ⟨?_, fun s₅ h₅ => ⟨?_, fun _ _ => trivial⟩⟩⟩⟩⟩⟩
    all_goals
      intro e hfree
      cases h₁
    · cases hfree
    · cases h₂
      cases hfree
    · cases h₂
      cases h₃
      cases h₄
      cases hfree
    · cases h₂
      cases h₃
      cases h₄
      cases h₅
      cases hfree

/-- Between the lookup and the loads thread 1 takes the handler out and frees its element, and the block
is used for something else. -/
def freedInBetween : List Event :=
  lookup ++ [.unregisterListener 1 1 7, .advance 1, .store 8 ⟨Filesystem.folderName, 5, 6⟩, .advance 2,
    .advance 2]

/-- The handler 6 is called under the tables 5, where the handler 7 and the tables 1 were found. -/
theorem reused_element_called : noMessages.Started ∧ Trace.Along (step 2) Proper noMessages freedInBetween ∧
    ∃ s, Trace.run (step 2) noMessages freedInBetween = some s ∧
      s.called = [⟨⟨Filesystem.folderName, 8, ⟨Filesystem.folderName, 1, 7⟩⟩, 5, 6⟩] ∧ ¬ s.Safe := by
  refine ⟨noMessages_started, (Trace.along_append ..).2 ⟨lookup_proper, fun s hs => ?_⟩, _, rfl, rfl,
    fun hsafe => ?_⟩
  · cases hs
    refine ⟨fun xs hxs => ?_, fun _ _ => ⟨trivial, fun _ _ => ⟨trivial, fun _ _ => ⟨trivial, fun _ _ =>
      ⟨trivial, fun _ _ => trivial⟩⟩⟩⟩⟩
    obtain rfl := isRing_unique hxs.ring lookup_ring
    exact ⟨8, List.mem_singleton_self 8, rfl, rfl⟩
  · obtain ⟨-, -, hpaging, -⟩ := hsafe.called _ (List.mem_singleton_self _)
    exact absurd hpaging (by decide)

end Dispatch

end Naul
