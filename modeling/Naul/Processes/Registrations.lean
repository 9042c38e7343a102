import Naul.Allocator.Disjoint
import Naul.Ipc
import Naul.Processes.Housed
import Naul.Tty

/-!
# What the registries refer to (`os/src/keyboard.c`, `mouse.c`, `tty.c`, `ipc.c`)

The keyboard and the mouse keep the physical addresses of the buffers that processes have registered,
`ttyBuffers` those of the terminals, and a listener the tables of the process it is in. The memory there
is given back by others: by `quit`, which looks at none of the registries, and by whatever else calls
`unallocate`.

The processes are underneath, and go on between the steps of a registration: an element is allocated,
and then linked under the lock of its registry; it is unlinked, and then given back. The rings are the
lists that they refine (`Feed.Inv`, `Ipc.Refines`), and `getAddress` has translated a buffer. A buffer
that is not registered is not unregistered, which `Removal.ring_kept_iff` is about.

`sound_iff` says when everything the registries refer to is allocated throughout a run.
-/

namespace Naul

namespace Registrations

inductive Device
  | keyboard
  | mouse
  deriving DecidableEq

/-- `sizeof(KeyboardBuffer)` and `sizeof(MouseBuffer)`. -/
def Device.size : Device → ℕ
  | .keyboard => 514
  | .mouse => 1538

/-- `sizeof(TtyBuffer)`. -/
def sizeofTtyBuffer : ℕ := 65568

/-- `sizeof(KeyboardBufferElement)` and `sizeof(MouseBufferElement)`. -/
def sizeofBufferElement : UInt64 := 24

/-- `sizeof(ListenerElement)`. -/
def sizeofListenerElement : UInt64 := 288

/-- What a thread in one of the functions is about to do: link its element, or give it back. -/
inductive Pending
  | link (d : Device) (element buffer : UInt64)
  | linkListener (element : UInt64) (listener : ListenerElement)
  | free (element : UInt64)

end Registrations

/-- The processes, the registries with the addresses of their elements, and what the threads are about to
do. -/
structure Registrations where
  processes : Processes
  buffers : Registrations.Device → List (UInt64 × UInt64)
  listeners : List (UInt64 × ListenerElement)
  ttyBuffers : UInt8 → TtySlot
  pending : ℕ → Option Registrations.Pending

namespace Registrations

inductive Event
  | process (e : Processes.Event)
  /-- `registerKeyboard` or `registerMouse`, for a buffer at a physical address. -/
  | registerBuffer (d : Device) (buffer : UInt64)
  | unregisterBuffer (d : Device) (buffer : UInt64)
  /-- `registerTty`, where `currentThread->ttyId` is `ttyId`. -/
  | registerTty (ttyId : UInt8) (buffer : UInt64)
  | unregisterTty (buffer : UInt64)
  | registerListener (handler : UInt64) (name : CString)
  | unregisterListener (handler : UInt64)
  /-- The current thread goes on with what it is about to do. -/
  | advance

def current (k : Registrations) : ℕ := k.processes.current

def table (k : Registrations) : Allocator := k.processes.allocator.table

def goto (p : Option Pending) (k : Registrations) : Registrations :=
  { k with pending := Function.update k.pending k.current p }

/-- The current thread is in no function of the kernel. -/
def AtRest (k : Registrations) : Prop := k.processes.AtRest ∧ (k.pending k.current).isNone = true

instance decidableAtRest (k : Registrations) : Decidable k.AtRest := inferInstanceAs (Decidable (_ ∧ _))

/-- The step is taken whatever the current thread is about to do. -/
def interrupts : Processes.Event → Bool
  | .schedule .preempt | .schedule (.hpet _) => true
  | _ => false

/-- `allocate(size)`, for an element that is about to be linked. -/
def allocate (fuel : ℕ) (size : UInt64) (p : UInt64 → Pending) (k : Registrations) :
    Option Registrations := do
  let (element, allocator) ← k.processes.allocator.allocate fuel .client size
  return { k with processes := { k.processes with allocator } }.goto (some (p element))

def advance (fuel : ℕ) (k : Registrations) : Option Registrations :=
  match k.pending k.current with
  | none => none
  | some (.link d element buffer) => some ({ k with
      buffers := Function.update k.buffers d (k.buffers d ++ [(element, buffer)]) }.goto none)
  | some (.linkListener element listener) =>
    some ({ k with listeners := k.listeners ++ [(element, listener)] }.goto none)
  | some (.free element) => do
    let processes ← k.processes.unallocate fuel element
    return { k with processes }.goto none

def step (fuel : ℕ) (k : Registrations) : Event → Option Registrations
  | .process e =>
    if (k.pending k.current).isNone || interrupts e then do
      let processes ← k.processes.step fuel e
      return { k with processes }
    else none
  | .registerBuffer d buffer =>
    if k.AtRest then k.allocate fuel sizeofBufferElement fun element => .link d element buffer
    else none
  | .unregisterBuffer d buffer =>
    if k.AtRest then do
      let r ← (k.buffers d).find? fun r => r.2 = buffer
      return { k with
        buffers := Function.update k.buffers d ((k.buffers d).eraseP fun r => r.2 = buffer) }.goto
          (some (.free r.1))
    else none
  | .registerTty ttyId buffer =>
    if k.AtRest then do
      let (_, ttyBuffers) ← Naul.registerTty k.ttyBuffers ttyId buffer
      return { k with ttyBuffers }
    else none
  | .unregisterTty buffer =>
    if k.AtRest then do
      let (_, ttyBuffers) ← Naul.unregisterTty k.ttyBuffers buffer
      return { k with ttyBuffers }
    else none
  | .registerListener handler name =>
    if k.AtRest ∧ stringLength name.bytes < nameSize then
      k.allocate fuel sizeofListenerElement fun element =>
        .linkListener element ⟨name, k.processes.cr3 k.current, handler⟩
    else none
  | .unregisterListener handler =>
    if k.AtRest then do
      let r ← k.listeners.find? (Ipc.Keyed (k.processes.cr3 k.current) handler)
      return { k with
        listeners := k.listeners.eraseP (Ipc.Keyed (k.processes.cr3 k.current) handler) }.goto
          (some (.free r.1))
    else none
  | .advance => k.advance fuel

/-! ### References -/

/-- The buffers of the slots that are used. -/
def ttyReferences (ttyBuffers : UInt8 → TtySlot) : List (UInt64 × ℕ) :=
  (((List.range 256).map UInt8.ofNat).filter fun id => (ttyBuffers id).used).map fun id =>
    ((ttyBuffers id).buffer, sizeofTtyBuffer)

/-- What the registries refer to: addresses, and the sizes of what is there. -/
def references (k : Registrations) : List (UInt64 × ℕ) :=
  ((k.buffers .keyboard).map fun r => (r.2, Device.size .keyboard)) ++
    ((k.buffers .mouse).map fun r => (r.2, Device.size .mouse)) ++
    (k.listeners.map fun r => (r.2.paging, pageEntrySize.toNat)) ++ ttyReferences k.ttyBuffers

/-- What is at an address lies in the block. -/
def Inside (r : Allocation) (x : UInt64 × ℕ) : Prop := r.start ≤ x.1 ∧ x.1.toNat + x.2 ≤ r.end'.toNat

instance decidableInside (r : Allocation) (x : UInt64 × ℕ) : Decidable (Inside r x) :=
  inferInstanceAs (Decidable (_ ∧ _))

/-- It lies in a block that is allocated. -/
def Lies (t : Allocator) (x : UInt64 × ℕ) : Prop := ∃ i ∈ t.live, Inside (t.allocated i) x

instance decidableLies (t : Allocator) (x : UInt64 × ℕ) : Decidable (Lies t x) :=
  inferInstanceAs (Decidable (∃ i ∈ t.live, _))

/-- Everything the registries refer to lies in allocated blocks. -/
def Sound (k : Registrations) : Prop := ∀ x ∈ k.references, Lies k.table x

instance decidableSound (k : Registrations) : Decidable k.Sound :=
  inferInstanceAs (Decidable (∀ x ∈ k.references, _))

/-- What a step passes to `unallocate`. -/
def freed (k : Registrations) : Event → Option UInt64
  | .process e => k.processes.freed e
  | .advance =>
    match k.pending k.current with
    | some (.free element) => some element
    | _ => none
  | _ => none

/-- What a step makes a registry refer to. -/
def added (k : Registrations) : Event → List (UInt64 × ℕ)
  | .registerTty _ buffer => [(buffer, sizeofTtyBuffer)]
  | .advance =>
    match k.pending k.current with
    | some (.link d _ buffer) => [(buffer, d.size)]
    | some (.linkListener _ listener) => [(listener.paging, pageEntrySize.toNat)]
    | _ => []
  | _ => []

/-- The allocator works as it should: present records do not overlap, and what is given back is a block,
the only one at its address. -/
def Orderly (k : Registrations) (e : Event) : Prop :=
  (∀ i ∈ k.table.live, ∀ j ∈ k.table.live, i ≠ j →
    Allocator.Apart (k.table.allocated i) (k.table.allocated j)) ∧
    ∀ p ∈ k.freed e, k.table.Starts p ∧ k.processes.allocator.Sole p

instance decidableOrderly (k : Registrations) (e : Event) : Decidable (k.Orderly e) :=
  have := Option.decidableForallMem (p := fun p => k.table.Starts p ∧ k.processes.allocator.Sole p) (k.freed e)
  inferInstanceAs (Decidable (_ ∧ _))

/-- Only allocated memory is registered, and no block is given back while a registry refers to something
in it. -/
def Careful (k : Registrations) (e : Event) : Prop :=
  (∀ x ∈ k.added e, Lies k.table x) ∧
    ∀ p ∈ k.freed e, ∀ i ∈ k.table.live, (k.table.allocated i).start = p →
      ∀ x ∈ k.references, ¬ Inside (k.table.allocated i) x

instance decidableCareful (k : Registrations) (e : Event) : Decidable (k.Careful e) :=
  have := Option.decidableForallMem (p := fun p => ∀ i ∈ k.table.live, (k.table.allocated i).start = p →
    ∀ x ∈ k.references, ¬ Inside (k.table.allocated i) x) (k.freed e)
  inferInstanceAs (Decidable (_ ∧ _))

/-! ### The table of the allocator -/

/-- What a step makes of the table: it gives back what `freed` says, or allocates at most one block. -/
def Changes (fuel : ℕ) (t t' : Allocator) : Option UInt64 → Prop
  | some p => t.unallocate fuel p = some t'
  | none => t' = t ∨ ∃ amount p value, t.reserve fuel amount p = some (value, t')

section Table

variable {k k' : Processes} {fuel : ℕ} {a : UInt64}

theorem unallocate_table (h : k.unallocate fuel a = some k') :
    Changes fuel k.allocator.table k'.allocator.table (some a) := by
  simp only [Processes.unallocate, Holdings.unallocate, bind, Option.bind_eq_some_iff, pure,
    Option.some.injEq] at h
  obtain ⟨m, ⟨slot, -, t, ht, rfl⟩, rfl⟩ := h
  exact ht

theorem reserve_table {s s' : Holdings Processes.Holder} {o : Processes.Holder} {amount value : UInt64}
    {p : Allocator.Placement} (h : s.reserve fuel o amount p = some (value, s')) :
    Changes fuel s.table s'.table none := by
  simp only [Holdings.reserve, bind, Option.bind_eq_some_iff, pure, Option.some.injEq, Prod.mk.injEq] at h
  obtain ⟨slot, -, ⟨v, t⟩, ht, rfl, rfl⟩ := h
  exact Or.inr ⟨amount, p, v, ht⟩

theorem allocate_table {o : Processes.Holder} {amount : UInt64} {d : UInt64 → Processes.Doing}
    (h : k.allocate fuel o amount d = some k') :
    Changes fuel k.allocator.table k'.allocator.table none := by
  simp only [Processes.allocate, bind, Option.bind_eq_some_iff, pure, Option.some.injEq] at h
  obtain ⟨⟨value, m⟩, hres, rfl⟩ := h
  exact reserve_table hres

theorem allocateAligned_table {o : Processes.Holder} {amount alignment : UInt64}
    {d : UInt64 → Processes.Doing} (h : k.allocateAligned fuel o amount alignment d = some k') :
    Changes fuel k.allocator.table k'.allocator.table none := by
  simp only [Processes.allocateAligned, bind, Option.bind_eq_some_iff, pure, Option.some.injEq] at h
  obtain ⟨⟨value, m⟩, hres, rfl⟩ := h
  exact reserve_table hres

theorem schedule_table {e : Scheduler.Event} (h : k.schedule e = some k') :
    k'.allocator = k.allocator := by
  simp only [Processes.schedule, bind, Option.bind_eq_some_iff, pure, Option.some.injEq] at h
  obtain ⟨s, -, rfl⟩ := h
  rfl

theorem advance_table (h : k.advance fuel = some k') :
    Changes fuel k.allocator.table k'.allocator.table (k.freed .advance) := by
  unfold Processes.freed
  unfold Processes.advance at h
  dsimp only at h ⊢
  cases hd : k.doing k.current <;> rw [hd] at h <;> dsimp only at h ⊢
  case idle => cases h
  case program | stack => exact allocateAligned_table h
  case symbolsFile | record => exact allocate_table h
  case symbols file program symbolsFile =>
    cases hsymbols : file.symbols with
    | none =>
      rw [hsymbols] at h
      obtain rfl := Option.some.inj h
      exact Or.inl rfl
    | some size =>
      simp only [hsymbols, bind, Option.bind_eq_some_iff, pure, Option.some.injEq] at h
      obtain ⟨⟨symbols, m⟩, hres, rfl⟩ := h
      exact reserve_table hres
  case freeSymbolsFile | quitProgram | quitTable => exact unallocate_table (k := k.goto _) h
  case table =>
    simp only [bind, Option.bind_eq_some_iff, pure, Option.some.injEq] at h
    obtain ⟨⟨table, m⟩, hres, rfl⟩ := h
    exact reserve_table hres
  case load | restore =>
    obtain rfl := Option.some.inj h
    exact Or.inl rfl
  case link record stack saved =>
    have hsame := schedule_table h
    exact Or.inl (by rw [hsame]; rfl)
  case quitSymbols =>
    split_ifs at h with hsymbols
    · rw [if_pos hsymbols]
      exact unallocate_table (k := k.goto _) h
    · rw [if_neg hsymbols]
      obtain rfl := Option.some.inj h
      exact Or.inl rfl
  case exitThread =>
    have hsame := schedule_table h
    exact Or.inl (congrArg Holdings.table hsame)

theorem process_table {e : Processes.Event} (h : k.step fuel e = some k') :
    Changes fuel k.allocator.table k'.allocator.table (k.freed e) := by
  have hschedule : ∀ e, k.schedule e = some k' → Changes fuel k.allocator.table k'.allocator.table none :=
    fun e he => Or.inl (congrArg Holdings.table (schedule_table he))
  cases e with
  | schedule e =>
    cases e with
    | preempt => exact hschedule .preempt h
    | hpet value => exact hschedule (.hpet value) h
    | advance =>
      simp only [Processes.step] at h
      split_ifs at h
      unfold Processes.freed
      dsimp only
      cases hreleased : k.released with
      | none =>
        rw [hreleased] at h
        exact hschedule _ h
      | some pointer =>
        simp only [hreleased, Option.bind_eq_some_iff] at h
        obtain ⟨k₁, hfree, hs⟩ := h
        have hsame := schedule_table hs
        have htable := unallocate_table hfree
        rwa [← hsame] at htable
    | call c =>
      cases c <;> simp only [Processes.step] at h
      case createThread => cases h
      all_goals
        split_ifs at h
        exact hschedule _ h
  | allocate amount =>
    simp only [Processes.step] at h
    split_ifs at h
    exact allocate_table h
  | allocateAligned amount alignment =>
    simp only [Processes.step] at h
    split_ifs at h
    exact allocateAligned_table h
  | unallocate pointer =>
    simp only [Processes.step] at h
    split_ifs at h
    exact unallocate_table h
  | execute file | createThread | quit =>
    simp only [Processes.step] at h
    split_ifs at h
    obtain rfl := Option.some.inj h
    exact Or.inl rfl
  | advance => exact advance_table h

end Table

variable {k k' : Registrations} {e : Event} {fuel : ℕ}

theorem mem_ttyReferences {ttyBuffers : UInt8 → TtySlot} {x : UInt64 × ℕ} : x ∈ ttyReferences ttyBuffers ↔
    ∃ id, (ttyBuffers id).used = true ∧ x = ((ttyBuffers id).buffer, sizeofTtyBuffer) := by
  simp only [ttyReferences, List.mem_map, List.mem_filter, List.mem_range]
  constructor
  · rintro ⟨id, ⟨-, hused⟩, rfl⟩
    exact ⟨id, hused, rfl⟩
  · rintro ⟨id, hused, rfl⟩
    exact ⟨id, ⟨⟨id.toNat, id.toNat_lt, UInt8.ofNat_toNat⟩, hused⟩, rfl⟩

theorem mem_references {x : UInt64 × ℕ} : x ∈ k.references ↔
    (∃ d, ∃ r ∈ k.buffers d, x = (r.2, d.size)) ∨
      (∃ r ∈ k.listeners, x = (r.2.paging, pageEntrySize.toNat)) ∨ x ∈ ttyReferences k.ttyBuffers := by
  simp only [references, List.mem_append, List.mem_map]
  constructor
  · rintro (((⟨r, hr, rfl⟩ | ⟨r, hr, rfl⟩) | ⟨r, hr, rfl⟩) | hx)
    · exact Or.inl ⟨.keyboard, r, hr, rfl⟩
    · exact Or.inl ⟨.mouse, r, hr, rfl⟩
    · exact Or.inr (Or.inl ⟨r, hr, rfl⟩)
    · exact Or.inr (Or.inr hx)
  · rintro (⟨d, r, hr, rfl⟩ | ⟨r, hr, rfl⟩ | hx)
    · cases d with
      | keyboard => exact Or.inl (Or.inl (Or.inl ⟨r, hr, rfl⟩))
      | mouse => exact Or.inl (Or.inl (Or.inr ⟨r, hr, rfl⟩))
    · exact Or.inl (Or.inr ⟨r, hr, rfl⟩)
    · exact Or.inr hx

/-- What a step does: the registries refer to nothing new but what is added, and to all of that. -/
structure Refers (fuel : ℕ) (k k' : Registrations) (e : Event) : Prop where
  table : Changes fuel k.table k'.table (k.freed e)
  old : ∀ x ∈ k'.references, x ∈ k.references ∨ x ∈ k.added e
  new : ∀ x ∈ k.added e, x ∈ k'.references ∧ k'.table = k.table
  freed : k.freed e ≠ none → k'.references = k.references

/-- A step that leaves the registries as they are. -/
theorem Refers.same (htable : Changes fuel k.table k'.table (k.freed e)) (hadded : k.added e = [])
    (hreferences : k'.references = k.references) : Refers fuel k k' e where
  table := htable
  old _ hx := Or.inl (hreferences ▸ hx)
  new _ hx := by
    rw [hadded] at hx
    cases hx
  freed _ := hreferences

/-- A step that only takes something out of the registries. -/
theorem Refers.less (htable : k'.table = k.table) (hfreed : k.freed e = none) (hadded : k.added e = [])
    (hreferences : ∀ x ∈ k'.references, x ∈ k.references) : Refers fuel k k' e where
  table := by
    rw [hfreed]
    exact Or.inl htable
  old x hx := Or.inl (hreferences x hx)
  new _ hx := by
    rw [hadded] at hx
    cases hx
  freed h := absurd hfreed h

/-- A step that registers one thing. -/
theorem Refers.one {y : UInt64 × ℕ} (htable : k'.table = k.table) (hfreed : k.freed e = none)
    (hadded : k.added e = [y]) (hold : ∀ x ∈ k'.references, x ∈ k.references ∨ x = y)
    (hnew : y ∈ k'.references) : Refers fuel k k' e where
  table := by
    rw [hfreed]
    exact Or.inl htable
  old x hx := by
    rw [hadded, List.mem_singleton]
    exact hold x hx
  new x hx := by
    rw [hadded, List.mem_singleton] at hx
    exact ⟨hx ▸ hnew, htable⟩
  freed h := absurd hfreed h

theorem refers_allocate {size : UInt64} {p : UInt64 → Pending} (hfreed : k.freed e = none)
    (hadded : k.added e = []) (h : k.allocate fuel size p = some k') : Refers fuel k k' e := by
  simp only [Registrations.allocate, bind, Option.bind_eq_some_iff, pure, Option.some.injEq] at h
  obtain ⟨⟨element, m⟩, hres, rfl⟩ := h
  exact .same (hfreed ▸ reserve_table hres) hadded rfl

/-- Elements that are added to the list of a device. -/
theorem mem_update_buffers {d : Device} {rs : List (UInt64 × UInt64)} {x : UInt64 × ℕ}
    (h : ∃ d', ∃ r ∈ Function.update k.buffers d rs d', x = (r.2, d'.size)) :
    (∃ r ∈ rs, x = (r.2, d.size)) ∨ ∃ d', ∃ r ∈ k.buffers d', x = (r.2, d'.size) := by
  obtain ⟨d', r, hr, hx⟩ := h
  by_cases hd : d' = d
  · rw [hd, Function.update_self] at hr
    exact Or.inl ⟨r, hr, hd ▸ hx⟩
  · rw [Function.update_of_ne hd] at hr
    exact Or.inr ⟨d', r, hr, hx⟩

theorem refers_link {d : Device} {element buffer : UInt64}
    (hpending : k.pending k.current = some (.link d element buffer)) :
    Refers fuel k ({ k with
      buffers := Function.update k.buffers d (k.buffers d ++ [(element, buffer)]) }.goto none) .advance := by
  have hadded : k.added .advance = [(buffer, d.size)] := by
    unfold added
    rw [hpending]
  have hfreed : k.freed .advance = none := by
    unfold Registrations.freed
    rw [hpending]
  refine .one rfl hfreed hadded (fun x hx => ?_) (mem_references.2 (Or.inl ⟨d, (element, buffer), ?_, rfl⟩))
  · rcases mem_references.1 hx with hbuffers | hrest
    · rcases mem_update_buffers hbuffers with ⟨r, hr, hx⟩ | hold
      · rw [List.mem_append, List.mem_singleton] at hr
        rcases hr with hr | rfl
        · exact Or.inl (mem_references.2 (Or.inl ⟨d, r, hr, hx⟩))
        · exact Or.inr hx
      · exact Or.inl (mem_references.2 (Or.inl hold))
    · exact Or.inl (mem_references.2 (Or.inr hrest))
  · show (element, buffer) ∈ Function.update k.buffers d _ d
    rw [Function.update_self]
    simp

theorem refers_linkListener {element : UInt64} {listener : ListenerElement}
    (hpending : k.pending k.current = some (.linkListener element listener)) :
    Refers fuel k ({ k with listeners := k.listeners ++ [(element, listener)] }.goto none) .advance := by
  have hadded : k.added .advance = [(listener.paging, pageEntrySize.toNat)] := by
    unfold added
    rw [hpending]
  have hfreed : k.freed .advance = none := by
    unfold Registrations.freed
    rw [hpending]
  refine .one rfl hfreed hadded (fun x hx => ?_)
    (mem_references.2 (Or.inr (Or.inl ⟨(element, listener), by simp [goto], rfl⟩)))
  · rcases mem_references.1 hx with hbuffers | ⟨r, hr, hx⟩ | htty
    · exact Or.inl (mem_references.2 (Or.inl hbuffers))
    · rcases List.mem_append.1 hr with hr | hr
      · exact Or.inl (mem_references.2 (Or.inr (Or.inl ⟨r, hr, hx⟩)))
      · obtain rfl := List.mem_singleton.1 hr
        exact Or.inr hx
    · exact Or.inl (mem_references.2 (Or.inr (Or.inr htty)))

theorem refers_advance (h : k.advance fuel = some k') : Refers fuel k k' .advance := by
  unfold Registrations.advance at h
  cases hpending : k.pending k.current with
  | none =>
    rw [hpending] at h
    cases h
  | some p =>
    rw [hpending] at h
    cases p with
    | link d element buffer =>
      obtain rfl := Option.some.inj h
      exact refers_link hpending
    | linkListener element listener =>
      obtain rfl := Option.some.inj h
      exact refers_linkListener hpending
    | free element =>
      obtain ⟨processes, hfree, hk⟩ := Option.bind_eq_some_iff.1 h
      obtain rfl := Option.some.inj hk
      have hfreed : k.freed .advance = some element := by
        unfold Registrations.freed
        rw [hpending]
      have hadded : k.added .advance = [] := by
        unfold added
        rw [hpending]
      exact .same (hfreed ▸ unallocate_table hfree) hadded rfl

/-- A slot is taken. -/
theorem refers_registerTty {ttyId id : UInt8} {buffer : UInt64} {ttyBuffers : UInt8 → TtySlot}
    (h : Naul.registerTty k.ttyBuffers ttyId buffer = some (id, ttyBuffers)) :
    Refers fuel k { k with ttyBuffers } (.registerTty ttyId buffer) := by
  simp only [Naul.registerTty, bind, Option.bind_eq_some_iff, pure, Option.some.injEq, Prod.mk.injEq] at h
  obtain ⟨slot, -, rfl, rfl⟩ := h
  refine .one rfl rfl rfl (fun x hx => ?_)
    (mem_references.2 (Or.inr (Or.inr (mem_ttyReferences.2 ⟨slot, ?_, ?_⟩))))
  · rcases mem_references.1 hx with hbuffers | hlisteners | htty
    · exact Or.inl (mem_references.2 (Or.inl hbuffers))
    · exact Or.inl (mem_references.2 (Or.inr (Or.inl hlisteners)))
    · obtain ⟨id, hused, rfl⟩ := mem_ttyReferences.1 htty
      dsimp only at hused ⊢
      by_cases hid : id = slot
      · rw [hid, Function.update_self]
        exact Or.inr rfl
      · rw [Function.update_of_ne hid] at hused ⊢
        exact Or.inl (mem_references.2 (Or.inr (Or.inr (mem_ttyReferences.2 ⟨id, hused, rfl⟩))))
  · dsimp only
    rw [Function.update_self]
  · dsimp only
    rw [Function.update_self]

/-- A slot is freed. -/
theorem refers_unregisterTty {id : UInt8} {buffer : UInt64} {ttyBuffers : UInt8 → TtySlot}
    (h : Naul.unregisterTty k.ttyBuffers buffer = some (id, ttyBuffers)) :
    Refers fuel k { k with ttyBuffers } (.unregisterTty buffer) := by
  simp only [Naul.unregisterTty, bind, Option.bind_eq_some_iff, pure, Option.some.injEq, Prod.mk.injEq] at h
  obtain ⟨slot, -, -, rfl⟩ := h
  refine .less rfl rfl rfl fun x hx => ?_
  rcases mem_references.1 hx with hbuffers | hlisteners | htty
  · exact mem_references.2 (Or.inl hbuffers)
  · exact mem_references.2 (Or.inr (Or.inl hlisteners))
  · obtain ⟨id, hused, rfl⟩ := mem_ttyReferences.1 htty
    dsimp only at hused ⊢
    by_cases hid : id = slot
    · rw [hid, Function.update_self] at hused
      cases hused
    · rw [Function.update_of_ne hid] at hused ⊢
      exact mem_references.2 (Or.inr (Or.inr (mem_ttyReferences.2 ⟨id, hused, rfl⟩)))

theorem step_refers (h : k.step fuel e = some k') : Refers fuel k k' e := by
  cases e with
  | process e =>
    simp only [step, bind] at h
    split_ifs at h
    obtain ⟨processes, hstep, hk⟩ := Option.bind_eq_some_iff.1 h
    obtain rfl := Option.some.inj hk
    exact .same (process_table hstep) rfl rfl
  | registerBuffer d buffer =>
    simp only [step] at h
    split_ifs at h
    exact refers_allocate rfl rfl h
  | unregisterBuffer d buffer =>
    simp only [step, bind] at h
    split_ifs at h
    obtain ⟨r, -, hk⟩ := Option.bind_eq_some_iff.1 h
    obtain rfl := Option.some.inj hk
    refine .less rfl rfl rfl fun x hx => ?_
    rcases mem_references.1 hx with hbuffers | hrest
    · rcases mem_update_buffers hbuffers with ⟨r, hr, hx⟩ | hold
      · exact mem_references.2 (Or.inl ⟨d, r, List.mem_of_mem_eraseP hr, hx⟩)
      · exact mem_references.2 (Or.inl hold)
    · exact mem_references.2 (Or.inr hrest)
  | registerTty ttyId buffer =>
    simp only [step, bind] at h
    split_ifs at h
    obtain ⟨⟨id, ttyBuffers⟩, hregister, hk⟩ := Option.bind_eq_some_iff.1 h
    obtain rfl := Option.some.inj hk
    exact refers_registerTty hregister
  | unregisterTty buffer =>
    simp only [step, bind] at h
    split_ifs at h
    obtain ⟨⟨id, ttyBuffers⟩, hunregister, hk⟩ := Option.bind_eq_some_iff.1 h
    obtain rfl := Option.some.inj hk
    exact refers_unregisterTty hunregister
  | registerListener handler name =>
    simp only [step] at h
    split_ifs at h
    exact refers_allocate rfl rfl h
  | unregisterListener handler =>
    simp only [step, bind] at h
    split_ifs at h
    obtain ⟨r, -, hk⟩ := Option.bind_eq_some_iff.1 h
    obtain rfl := Option.some.inj hk
    refine .less rfl rfl rfl fun x hx => ?_
    rcases mem_references.1 hx with hbuffers | ⟨r, hr, hx⟩ | htty
    · exact mem_references.2 (Or.inl hbuffers)
    · exact mem_references.2 (Or.inr (Or.inl ⟨r, List.mem_of_mem_eraseP hr, hx⟩))
    · exact mem_references.2 (Or.inr (Or.inr htty))
  | advance => exact refers_advance h

/-! ### The guarantee -/

section Guarantee

variable {t t' : Allocator} {x : UInt64 × ℕ} {slot : ℕ}

/-- What was in another block is in a block still. -/
theorem Lies.released (h : Lies t x) (hrel : Allocator.Released t slot t')
    (hslot : ¬ Inside (t.allocated slot) x) : Lies t' x := by
  obtain ⟨i, hi, hx⟩ := h
  have hne : i ≠ slot := by
    rintro rfl
    exact hslot hx
  refine ⟨i, ?_, ?_⟩
  · rw [hrel.live_eq]
    exact Finset.mem_erase.2 ⟨hne, hi⟩
  · rwa [hrel.allocated_of_ne i hne]

/-- What was in the block is in none. -/
theorem not_lies_released (hrel : Allocator.Released t slot t') (hx : Inside (t.allocated slot) x)
    (hsize : 0 < x.2) (hapart : ∀ i ∈ t.live, ∀ j ∈ t.live, i ≠ j →
      Allocator.Apart (t.allocated i) (t.allocated j)) : ¬ Lies t' x := by
  rintro ⟨i, hi, hxi⟩
  rw [hrel.live_eq, Finset.mem_erase] at hi
  rw [hrel.allocated_of_ne i hi.1] at hxi
  obtain ⟨hstart, hend⟩ := hx
  obtain ⟨hstart', hend'⟩ := hxi
  rw [UInt64.le_iff_toNat_le] at hstart hstart'
  have hdisjoint := hapart i hi.2 slot hrel.mem hi.1
  simp only [Allocator.Apart, UInt64.le_iff_toNat_le] at hdisjoint
  omega

theorem Lies.reserved (h : Lies t x) {r : Allocation} (hrec : Allocator.Recorded t slot r t') : Lies t' x := by
  obtain ⟨i, hi, hx⟩ := h
  refine ⟨i, ?_, ?_⟩
  · rw [hrec.live_eq]
    exact Finset.mem_insert_of_mem hi
  · rwa [hrec.allocated_of_live hi]

/-- The block that is given back. -/
theorem freed_released {s : Holdings Processes.Holder} {p : UInt64} (hstarts : s.table.Starts p)
    (hsole : s.Sole p) (h : s.table.unallocate fuel p = some t') : ∃ slot,
      Allocator.Released s.table slot t' ∧ (s.table.allocated slot).start = p ∧
        ∀ i ∈ s.table.live, (s.table.allocated i).start = p → i = slot := by
  obtain ⟨i, hi, hstart⟩ := hstarts
  obtain ⟨slot, hrel, -, hstart'⟩ := Allocator.unallocate_released hi hstart h
  exact ⟨slot, hrel, hstart', fun j hj hj' => hsole j hj slot hrel.mem hj' hstart'⟩

end Guarantee

theorem references_pos {x : UInt64 × ℕ} (hx : x ∈ k.references) : 0 < x.2 := by
  rcases mem_references.1 hx with ⟨d, r, -, rfl⟩ | ⟨r, -, rfl⟩ | htty
  · cases d
    · exact (by decide : 0 < Device.keyboard.size)
    · exact (by decide : 0 < Device.mouse.size)
  · exact (by decide : 0 < pageEntrySize.toNat)
  · obtain ⟨id, -, rfl⟩ := mem_ttyReferences.1 htty
    exact (by decide : 0 < sizeofTtyBuffer)

structure Inv (k : Registrations) : Prop where
  counted : Allocator.Counted k.table
  sound : k.Sound

theorem inv_step (h : k.Inv) (hC : k.Orderly e) (hD : k.Careful e) (hstep : k.step fuel e = some k') :
    k'.Inv := by
  have hrefers := step_refers hstep
  have htable := hrefers.table
  cases hfreed : k.freed e with
  | none =>
    rw [hfreed] at htable
    have hkeeps : Allocator.Counted k'.table ∧ ∀ x, Lies k.table x → Lies k'.table x := by
      rcases htable with hsame | ⟨amount, p, value, hres⟩
      · rw [hsame]
        exact ⟨h.counted, fun _ => id⟩
      · obtain ⟨slot, -, -, hrec⟩ := Allocator.reserve_recorded h.counted hres
        exact ⟨hrec.counted h.counted, fun x hx => hx.reserved hrec⟩
    refine ⟨hkeeps.1, fun x hx => hkeeps.2 x ?_⟩
    exact (hrefers.old x hx).elim (h.sound x) (hD.1 x)
  | some p =>
    rw [hfreed] at htable
    obtain ⟨hstarts, hsole⟩ := hC.2 p hfreed
    obtain ⟨slot, hrel, hstart, -⟩ := freed_released hstarts hsole htable
    refine ⟨hrel.counted h.counted, fun x hx => ?_⟩
    rw [hrefers.freed (by rw [hfreed]; exact Option.some_ne_none p)] at hx
    exact (h.sound x hx).released hrel (hD.2 p hfreed slot hrel.mem hstart x hx)

/-- A step that is not careful leaves a reference to memory that is not allocated. -/
theorem careless (hC : k.Orderly e) (hD : ¬ k.Careful e) (hstep : k.step fuel e = some k') :
    ¬ k'.Sound := by
  have hrefers := step_refers hstep
  have htable := hrefers.table
  intro hsound
  refine hD ⟨fun x hx => ?_, fun p hp i hi hstart x hx hinside => ?_⟩
  · obtain ⟨hmem, hsame⟩ := hrefers.new x hx
    rw [← hsame]
    exact hsound x hmem
  · rw [hp] at htable
    obtain ⟨hstarts, hsole⟩ := hC.2 p hp
    obtain ⟨slot, hrel, -, honly⟩ := freed_released hstarts hsole htable
    obtain rfl := honly i hi hstart
    refine not_lies_released hrel hinside (references_pos hx) hC.1 (hsound x ?_)
    rwa [hrefers.freed (by rw [hp]; exact Option.some_ne_none p)]

/-- **No registry refers to memory that is not allocated** throughout a run if and only if only allocated
memory is registered in it and no block is given back that a registry refers to. -/
theorem sound_iff {events : List Event} (hcounted : Allocator.Counted k.table) (hsound : k.Sound)
    (hC : Trace.Along (step fuel) Orderly k events) (hrun : Trace.run (step fuel) k events = some k') :
    (∀ before k₁, before <+: events → Trace.run (step fuel) k before = some k₁ → k₁.Sound) ↔
      Trace.Along (step fuel) Careful k events :=
  Trace.forall_prefix_iff_along (fun _ h => h.sound) (fun _ _ _ => inv_step) (fun _ _ _ _ => careless)
    ⟨hcounted, hsound⟩ hC hrun

/-- After `initScheduler`, with nothing registered. -/
def boot : Registrations where
  processes := Processes.boot
  buffers := fun _ => []
  listeners := []
  ttyBuffers := fun _ => ⟨false, 0, 0⟩
  pending := fun _ => none

/-- The kernel's thread executes a program, and the thread of the program runs. -/
def launch : List Event :=
  .process (.execute ⟨0x20008, 8, none⟩) :: List.replicate 10 (.process .advance) ++
    [.process (.schedule .preempt), .process (.schedule .preempt)]

/-- It registers a buffer, and quits after it has unregistered it. -/
def tidy : List Event :=
  launch ++ [.registerBuffer .keyboard 0x1200000, .advance, .unregisterBuffer .keyboard 0x1200000, .advance,
    .process .quit, .process .advance, .process .advance, .process .advance]

theorem sound_iff_tidy : ∃ k, Trace.run (step 20) boot tidy = some k ∧ k.Sound := by
  have hC : Trace.Along (step 20) Orderly boot tidy := by decide +kernel
  have hD : Trace.Along (step 20) Careful boot tidy := by decide +kernel
  obtain ⟨k, hrun⟩ : ∃ k, Trace.run (step 20) boot tidy = some k := ⟨_, rfl⟩
  have hsound := (sound_iff (k := boot) Processes.started_boot.counted (by decide) hC hrun).2 hD
  exact ⟨k, hrun, hsound tidy k (List.prefix_refl _) hrun⟩

/-- `quit` leaves what the process has registered: the keyboard's interrupt handler goes on to write to
the buffer. The process cannot even take back everything, if it has registered a terminal twice:
`unregisterTty` finds the slot that it has freed already. -/
theorem quit_leaves_registered :
    (∃ k, Trace.run (step 20) boot (launch ++ [.registerBuffer .keyboard 0x1200000, .advance,
      .process .quit, .process .advance]) = some k ∧ (0x1200000, 514) ∈ k.references ∧
        ¬ Lies k.table (0x1200000, 514)) ∧
    ∃ k, Trace.run (step 20) boot (launch ++ [.registerTty 0 0x1200000, .registerTty 0 0x1200000,
      .unregisterTty 0x1200000, .unregisterTty 0x1200000, .process .quit, .process .advance]) = some k ∧
        (0x1200000, sizeofTtyBuffer) ∈ k.references ∧ ¬ Lies k.table (0x1200000, sizeofTtyBuffer) := by
  refine ⟨⟨_, rfl, ?_, ?_⟩, _, rfl, ?_, ?_⟩
  all_goals decide +kernel

end Registrations

end Naul
