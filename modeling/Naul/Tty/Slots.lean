import Naul.Lib.Trace
import Naul.Tty

/-!
# The slots of the registered terminals

`registerTty` takes the first slot that is not in use, and `unregisterTty` looks for the first slot with
the address of the buffer, in use or not: the address stays in a slot that has been released.

It finds the right slot nevertheless (`slots_found`). When a buffer is registered, all slots below its
own are in use, by other buffers; and as long as it is registered, what comes into those slots are other
buffers again (`Inv.lower`).
-/

namespace Naul

/-- The array, and as a ghost the buffers that are registered, each with the slot that was chosen for
it. -/
structure Slots where
  ttyBuffers : UInt8 → TtySlot
  registered : List (UInt64 × UInt8)

/-- The loop of `initTty`. -/
def initTty (ttyBuffers : UInt8 → TtySlot) : UInt8 → TtySlot :=
  fun id => { ttyBuffers id with used := false }

namespace Slots

/-- A call by a thread whose id is `ttyId`, for a buffer at a physical address. -/
inductive Event
  | registerTty (ttyId : UInt8) (buffer : UInt64)
  | unregisterTty (buffer : UInt64)
  deriving DecidableEq

def step (s : Slots) : Event → Option Slots
  | .registerTty ttyId buffer => do
    let (id, ttyBuffers) ← Naul.registerTty s.ttyBuffers ttyId buffer
    return ⟨ttyBuffers, (buffer, id) :: s.registered⟩
  | .unregisterTty buffer => do
    let (_, ttyBuffers) ← Naul.unregisterTty s.ttyBuffers buffer
    return ⟨ttyBuffers, s.registered.filter fun r => r.1 ≠ buffer⟩

/-- The buffer is registered. -/
def Live (s : Slots) (buffer : UInt64) : Prop := buffer ∈ s.registered.map Prod.fst

instance decidableLive (s : Slots) (buffer : UInt64) : Decidable (s.Live buffer) :=
  inferInstanceAs (Decidable (_ ∈ _))

/-- A buffer is registered once at a time, and unregistered while it is registered; at most 256 are
registered. -/
def Proper (s : Slots) : Event → Prop
  | .registerTty _ buffer => ¬ s.Live buffer ∧ s.registered.length < 256
  | .unregisterTty buffer => s.Live buffer

instance decidableProper (s : Slots) : ∀ e, Decidable (s.Proper e)
  | .registerTty _ _ => inferInstanceAs (Decidable (_ ∧ _))
  | .unregisterTty buffer => inferInstanceAs (Decidable (s.Live buffer))

/-! ### The invariant -/

structure Inv (s : Slots) : Prop where
  used : ∀ id, (s.ttyBuffers id).used = true ↔ ∃ buffer, (buffer, id) ∈ s.registered
  buffer : ∀ buffer id, (buffer, id) ∈ s.registered → (s.ttyBuffers id).buffer = buffer
  /-- No slot below that of a registered buffer has its address. -/
  lower : ∀ buffer id, (buffer, id) ∈ s.registered → ∀ j < id, (s.ttyBuffers j).buffer ≠ buffer

variable {s s' : Slots} {buffer : UInt64} {id ttyId : UInt8} {e : Event}

theorem inv_initTty (ttyBuffers : UInt8 → TtySlot) : Inv ⟨initTty ttyBuffers, []⟩ := by
  constructor
  · simp [initTty]
  · simp
  · simp

/-- With fewer than 256 buffers some slot is not in use. -/
theorem Inv.exists_free (h : s.Inv) (hlength : s.registered.length < 256) :
    ∃ id, (s.ttyBuffers id).used = false := by
  by_contra hall
  have hsub : List.range 256 ⊆ s.registered.map fun r => r.2.toNat := by
    intro i hi
    have hused : (s.ttyBuffers (.ofNat i)).used = true := by
      by_contra hfree
      exact hall ⟨_, eq_false_of_ne_true hfree⟩
    obtain ⟨buffer, hmem⟩ := (h.used _).1 hused
    refine List.mem_map.2 ⟨_, hmem, ?_⟩
    rw [UInt8.toNat_ofNat', Nat.mod_eq_of_lt (List.mem_range.1 hi)]
  have hle := (List.nodup_range.subperm hsub).length_le
  rw [List.length_range, List.length_map] at hle
  omega

/-- `registerTty` takes a slot that is not in use, and those below it are. -/
theorem Inv.registerTty (h : s.Inv) (hlength : s.registered.length < 256) (ttyId : UInt8)
    (buffer : UInt64) :
    ∃ id, Naul.registerTty s.ttyBuffers ttyId buffer =
        some (id, Function.update s.ttyBuffers id ⟨true, ttyId, buffer⟩) ∧
      (s.ttyBuffers id).used = false ∧ ∀ j < id, (s.ttyBuffers j).used = true := by
  obtain ⟨free, hfree⟩ := h.exists_free hlength
  obtain ⟨id, hfind, hid, hfirst⟩ :=
    @findSlot_total s.ttyBuffers (fun slot => !slot.used) ⟨free, by simp [hfree]⟩
  refine ⟨id, ?_, by simpa using hid, fun j hj => by simpa using hfirst j hj⟩
  simp only [Naul.registerTty, hfind, bind, Option.bind_some, pure]

/-- `unregisterTty` finds the slot of the buffer. -/
theorem Inv.unregisterTty (h : s.Inv) (hmem : (buffer, id) ∈ s.registered) :
    Naul.unregisterTty s.ttyBuffers buffer = some ((s.ttyBuffers id).oldId,
      Function.update s.ttyBuffers id { s.ttyBuffers id with used := false }) := by
  have hfind : findSlot s.ttyBuffers (fun slot => slot.buffer = buffer) = some id := by
    apply findSlot_of_first
    · simpa using h.buffer buffer id hmem
    · intro j hj
      simpa using h.lower buffer id hmem j hj
  simp only [Naul.unregisterTty, hfind, bind, Option.bind_some, pure]

/-- A buffer has one slot. -/
theorem Inv.slot_unique (h : s.Inv) {i : UInt8} (hmem : (buffer, id) ∈ s.registered)
    (hmem' : (buffer, i) ∈ s.registered) : i = id := by
  by_contra hne
  rcases UInt8.lt_or_lt_of_ne hne with hlt | hlt
  · exact h.lower _ _ hmem i hlt (h.buffer _ _ hmem')
  · exact h.lower _ _ hmem' id hlt (h.buffer _ _ hmem)

theorem Inv.register (h : s.Inv) (hlive : ¬ s.Live buffer) (hid : (s.ttyBuffers id).used = false)
    (hfirst : ∀ j < id, (s.ttyBuffers j).used = true) :
    Inv ⟨Function.update s.ttyBuffers id ⟨true, ttyId, buffer⟩, (buffer, id) :: s.registered⟩ := by
  have hnew : ∀ {b i}, (b, i) ∈ s.registered → b ≠ buffer ∧ i ≠ id := by
    intro b i hmem
    constructor
    · rintro rfl
      exact hlive (List.mem_map_of_mem hmem)
    · rintro rfl
      rw [(h.used i).2 ⟨b, hmem⟩] at hid
      cases hid
  constructor
  · intro i
    by_cases hi : i = id
    · simp [hi]
    · simp [hi, h.used i]
  · intro b i hmem
    rcases List.mem_cons.1 hmem with heq | hmem
    · cases heq
      simp
    · dsimp only
      rw [Function.update_of_ne (hnew hmem).2]
      exact h.buffer b i hmem
  · intro b i hmem j hj
    dsimp only
    rcases List.mem_cons.1 hmem with heq | hmem
    · -- the slots below are in use, by buffers that were registered before
      cases heq
      rw [Function.update_of_ne (UInt8.ne_of_lt hj)]
      obtain ⟨c, hc⟩ := (h.used j).1 (hfirst j hj)
      rw [h.buffer c j hc]
      exact (hnew hc).1
    · by_cases hji : j = id
      · rw [hji, Function.update_self]
        exact (hnew hmem).1.symm
      · rw [Function.update_of_ne hji]
        exact h.lower b i hmem j hj

theorem Inv.unregister (h : s.Inv) (hmem : (buffer, id) ∈ s.registered) :
    Inv ⟨Function.update s.ttyBuffers id { s.ttyBuffers id with used := false },
      s.registered.filter fun r => r.1 ≠ buffer⟩ := by
  have hbuffer : ∀ i, (Function.update s.ttyBuffers id { s.ttyBuffers id with used := false } i).buffer =
      (s.ttyBuffers i).buffer := by
    intro i
    by_cases hi : i = id
    · simp [hi]
    · rw [Function.update_of_ne hi]
  have hrest : ∀ {b i}, (b, i) ∈ (s.registered.filter fun r => r.1 ≠ buffer) ↔
      (b, i) ∈ s.registered ∧ b ≠ buffer := by
    simp [List.mem_filter]
  constructor
  · intro i
    simp only [hrest]
    by_cases hi : i = id
    · -- only the buffer itself was in this slot
      subst hi
      rw [Function.update_self]
      refine iff_of_false Bool.false_ne_true ?_
      rintro ⟨b, hb, hne⟩
      exact hne ((h.buffer b i hb).symm.trans (h.buffer buffer i hmem))
    · rw [Function.update_of_ne hi, h.used i]
      refine exists_congr fun b => (and_iff_left_of_imp fun hb => ?_).symm
      rintro rfl
      exact hi (h.slot_unique hmem hb)
  · intro b i hb
    rw [hbuffer]
    exact h.buffer b i (hrest.1 hb).1
  · intro b i hb j hj
    rw [hbuffer]
    exact h.lower b i (hrest.1 hb).1 j hj

theorem inv_step (h : s.Inv) (hC : s.Proper e) (hstep : s.step e = some s') : s'.Inv := by
  cases e with
  | registerTty ttyId buffer =>
    obtain ⟨id, hregister, hid, hfirst⟩ := h.registerTty hC.2 ttyId buffer
    simp only [step, hregister, bind, Option.bind_some, pure, Option.some.injEq] at hstep
    subst hstep
    exact h.register hC.1 hid hfirst
  | unregisterTty buffer =>
    obtain ⟨⟨b, id⟩, hmem, rfl⟩ := List.mem_map.1 hC
    simp only [step, h.unregisterTty hmem, bind, Option.bind_some, pure, Option.some.injEq] at hstep
    subst hstep
    exact h.unregister hmem

/-- **`unregisterTty` finds the slot.** In every state of a run that starts with no buffer registered, and
whatever addresses are left in the slots: unregistering a buffer clears the flag of the slot in which it
is registered and changes nothing else, and registering another one takes a slot that is not in use. -/
theorem slots_found {ttyBuffers : UInt8 → TtySlot} {events : List Event}
    (hC : Trace.Along step Proper ⟨initTty ttyBuffers, []⟩ events)
    (hrun : Trace.run step ⟨initTty ttyBuffers, []⟩ events = some s) :
    (∀ id, (s.ttyBuffers id).used = true ↔ ∃ buffer, (buffer, id) ∈ s.registered) ∧
      (∀ buffer id, (buffer, id) ∈ s.registered →
        Naul.unregisterTty s.ttyBuffers buffer = some ((s.ttyBuffers id).oldId,
          Function.update s.ttyBuffers id { s.ttyBuffers id with used := false })) ∧
      ∀ buffer, s.registered.length < 256 → ∀ ttyId, ∃ id, (s.ttyBuffers id).used = false ∧
        Naul.registerTty s.ttyBuffers ttyId buffer =
          some (id, Function.update s.ttyBuffers id ⟨true, ttyId, buffer⟩) := by
  have h : s.Inv :=
    Trace.run_invariant_along (fun s e s' h hC hstep => inv_step h hC hstep) (inv_initTty ttyBuffers) hC hrun
  refine ⟨h.used, fun buffer id hmem => h.unregisterTty hmem, fun buffer hlength ttyId => ?_⟩
  obtain ⟨id, hregister, hid, -⟩ := h.registerTty hlength ttyId buffer
  exact ⟨id, hid, hregister⟩

/-- Buffers 5 and 6 are registered, 5 is released and comes back after 7 has taken its slot: its address
is in slot 2 now, where it is found. -/
theorem slots_found_stale :
    ∃ s, Trace.run step ⟨initTty fun _ => ⟨true, 0, 6⟩, []⟩
        [.registerTty 0 5, .registerTty 0 6, .unregisterTty 5, .registerTty 1 7, .registerTty 1 5] = some s ∧
      (5, 2) ∈ s.registered ∧ Naul.unregisterTty s.ttyBuffers 5 = some ((s.ttyBuffers 2).oldId,
        Function.update s.ttyBuffers 2 { s.ttyBuffers 2 with used := false }) := by
  have hC : Trace.Along step Proper ⟨initTty fun _ => ⟨true, 0, 6⟩, []⟩
      [.registerTty 0 5, .registerTty 0 6, .unregisterTty 5, .registerTty 1 7, .registerTty 1 5] := by
    decide
  obtain ⟨s, hrun⟩ : ∃ s, Trace.run step ⟨initTty fun _ => ⟨true, 0, 6⟩, []⟩
      [.registerTty 0 5, .registerTty 0 6, .unregisterTty 5, .registerTty 1 7, .registerTty 1 5] = some s :=
    ⟨_, rfl⟩
  have hmem : (5, 2) ∈ s.registered := by
    cases hrun
    decide
  exact ⟨s, hrun, hmem, (slots_found hC hrun).2.1 5 2 hmem⟩

end Slots

end Naul
