import Naul.Tty.Slots

/-!
# When the calls return (`os/src/tty.c`)

`registerTty` and `unregisterTty` search the array with an index of eight bits, which is back at zero
after slot 255. Neither loop has another way out than to find a slot, and both run with `ttyLock` set.

So a call returns, with the lock released, exactly when there is a slot to find
(`registerTty_returns_iff`, `unregisterTty_returns_iff`), and no call that returns leaves the lock set
(`ttyLock_of_run`).
-/

namespace Naul

/-- The lock, the array `ttyBuffers`, and the field `ttyId` of each thread. -/
structure TtyRegistry where
  ttyLock : Bool
  ttyBuffers : UInt8 → TtySlot
  ttyId : ℕ → UInt8

namespace TtyRegistry

/-- `lock(&ttyLock)`, when the thread does not have to wait. -/
def lock (s : TtyRegistry) : Option TtyRegistry :=
  if s.ttyLock then none else some { s with ttyLock := true }

/-- `unlock(&ttyLock)`. -/
def unlock (s : TtyRegistry) : TtyRegistry := { s with ttyLock := false }

/-- `registerTty(buffer)` by the thread `t`, for a buffer at a physical address. The loop has at most
`fuel` turns. -/
def registerTty (fuel t : ℕ) (buffer : UInt64) (s : TtyRegistry) : Option TtyRegistry := do
  let s ← s.lock
  let id ← WhileLoop.run (slotTurn s.ttyBuffers fun slot => !slot.used) fuel 0
  let s := { s with ttyBuffers := Function.update s.ttyBuffers id ⟨true, s.ttyId t, buffer⟩ }
  let s := s.unlock
  return { s with ttyId := Function.update s.ttyId t id }

/-- `unregisterTty(buffer)` by the thread `t`. -/
def unregisterTty (fuel t : ℕ) (buffer : UInt64) (s : TtyRegistry) : Option TtyRegistry := do
  let s ← s.lock
  let id ← WhileLoop.run (slotTurn s.ttyBuffers fun slot => slot.buffer = buffer) fuel 0
  let s := { s with ttyId := Function.update s.ttyId t (s.ttyBuffers id).oldId }
  let s := { s with ttyBuffers := Function.update s.ttyBuffers id { s.ttyBuffers id with used := false } }
  return s.unlock

inductive Event
  | registerTty (t : ℕ) (buffer : UInt64)
  | unregisterTty (t : ℕ) (buffer : UInt64)
  /-- A thread makes another one, which gets its `ttyId`. -/
  | createThread (creator t : ℕ)

/-- A call that returns. -/
def step (s : TtyRegistry) : Event → Option TtyRegistry
  | .registerTty t buffer => s.registerTty 256 t buffer
  | .unregisterTty t buffer => s.unregisterTty 256 t buffer
  | .createThread creator t => some { s with ttyId := Function.update s.ttyId t (s.ttyId creator) }

/-- The state that `initTty` makes. -/
def start (ttyBuffers : UInt8 → TtySlot) (ttyId : ℕ → UInt8) : TtyRegistry :=
  ⟨false, initTty ttyBuffers, ttyId⟩

/-- With enough turns the call returns, and the lock is released. -/
def Returns (call : ℕ → TtyRegistry → Option TtyRegistry) (s : TtyRegistry) : Prop :=
  ∃ fuel s', call fuel s = some s' ∧ s'.ttyLock = false

/-- If the call returns, the array and the threads' ids are as they were. -/
def Unchanged (call : ℕ → TtyRegistry → Option TtyRegistry) (s : TtyRegistry) : Prop :=
  ∀ fuel s', call fuel s = some s' → s'.ttyBuffers = s.ttyBuffers ∧ s'.ttyId = s.ttyId

/-- `registerTty` returns, and changes nothing when all slots are in use. -/
def RegisterFinishes (s : TtyRegistry) (t : ℕ) (buffer : UInt64) : Prop :=
  Returns (registerTty · t buffer) s ∧
    ((∀ id, (s.ttyBuffers id).used = true) → Unchanged (registerTty · t buffer) s)

/-- `unregisterTty` returns, and changes nothing when the buffer is in no slot. -/
def UnregisterFinishes (s : TtyRegistry) (t : ℕ) (buffer : UInt64) : Prop :=
  Returns (unregisterTty · t buffer) s ∧
    ((∀ id, (s.ttyBuffers id).buffer ≠ buffer) → Unchanged (unregisterTty · t buffer) s)

variable {s s' : TtyRegistry} {t fuel : ℕ} {buffer : UInt64} {e : Event}

theorem lock_of_free (hlock : s.ttyLock = false) : s.lock = some { s with ttyLock := true } :=
  if_neg (by rw [hlock]; exact Bool.false_ne_true)

/-- A search that ends has found a slot; and one that has a slot to find ends. -/
theorem exists_run_iff {ttyBuffers : UInt8 → TtySlot} {p : TtySlot → Bool} :
    (∃ fuel id, WhileLoop.run (slotTurn ttyBuffers p) fuel 0 = some id) ↔
      ∃ id, p (ttyBuffers id) = true := by
  constructor
  · rintro ⟨fuel, id, hrun⟩
    exact ⟨id, slotTurn_exit hrun⟩
  · intro hex
    obtain ⟨id, hfind, -⟩ := findSlot_total hex
    exact ⟨256, id, hfind⟩

theorem registerTty_eq_some (h : s.registerTty fuel t buffer = some s') :
    ∃ id, WhileLoop.run (slotTurn s.ttyBuffers fun slot => !slot.used) fuel 0 = some id ∧
      s' = ⟨false, Function.update s.ttyBuffers id ⟨true, s.ttyId t, buffer⟩,
        Function.update s.ttyId t id⟩ := by
  simp only [registerTty, lock, bind, Option.bind_eq_some_iff, pure, Option.some.injEq] at h
  obtain ⟨s₁, hlock, id, hrun, rfl⟩ := h
  split_ifs at hlock
  cases hlock
  exact ⟨id, hrun, rfl⟩

theorem unregisterTty_eq_some (h : s.unregisterTty fuel t buffer = some s') :
    ∃ id, WhileLoop.run (slotTurn s.ttyBuffers fun slot => slot.buffer = buffer) fuel 0 = some id ∧
      s' = ⟨false, Function.update s.ttyBuffers id { s.ttyBuffers id with used := false },
        Function.update s.ttyId t (s.ttyBuffers id).oldId⟩ := by
  simp only [unregisterTty, lock, bind, Option.bind_eq_some_iff, pure, Option.some.injEq] at h
  obtain ⟨s₁, hlock, id, hrun, rfl⟩ := h
  split_ifs at hlock
  cases hlock
  exact ⟨id, hrun, rfl⟩

theorem registerTty_of_run (hlock : s.ttyLock = false) {id : UInt8}
    (hrun : WhileLoop.run (slotTurn s.ttyBuffers fun slot => !slot.used) fuel 0 = some id) :
    s.registerTty fuel t buffer =
      some ⟨false, Function.update s.ttyBuffers id ⟨true, s.ttyId t, buffer⟩,
        Function.update s.ttyId t id⟩ := by
  simp only [registerTty, lock_of_free hlock, hrun, bind, Option.bind_some, pure, unlock]

theorem unregisterTty_of_run (hlock : s.ttyLock = false) {id : UInt8}
    (hrun : WhileLoop.run (slotTurn s.ttyBuffers fun slot => slot.buffer = buffer) fuel 0 = some id) :
    s.unregisterTty fuel t buffer =
      some ⟨false, Function.update s.ttyBuffers id { s.ttyBuffers id with used := false },
        Function.update s.ttyId t (s.ttyBuffers id).oldId⟩ := by
  simp only [unregisterTty, lock_of_free hlock, hrun, bind, Option.bind_some, pure, unlock]

/-- `registerTty` returns exactly when some slot is not in use. -/
theorem registerTty_returns_iff (hlock : s.ttyLock = false) :
    Returns (registerTty · t buffer) s ↔ ∃ id, (s.ttyBuffers id).used = false := by
  have hfree : (∃ id, (s.ttyBuffers id).used = false) ↔ ∃ id, (!(s.ttyBuffers id).used) = true := by
    simp only [Bool.not_eq_true']
  rw [hfree, ← exists_run_iff (p := fun slot => !slot.used)]
  constructor
  · rintro ⟨fuel, s', hcall, -⟩
    obtain ⟨id, hrun, -⟩ := registerTty_eq_some hcall
    exact ⟨fuel, id, hrun⟩
  · rintro ⟨fuel, id, hrun⟩
    exact ⟨fuel, _, registerTty_of_run hlock hrun, rfl⟩

/-- `unregisterTty` returns exactly when some slot has the address. -/
theorem unregisterTty_returns_iff (hlock : s.ttyLock = false) :
    Returns (unregisterTty · t buffer) s ↔ ∃ id, (s.ttyBuffers id).buffer = buffer := by
  have haddress : (∃ id, (s.ttyBuffers id).buffer = buffer) ↔
      ∃ id, decide ((s.ttyBuffers id).buffer = buffer) = true := by
    simp only [decide_eq_true_eq]
  rw [haddress, ← exists_run_iff (p := fun slot => slot.buffer = buffer)]
  constructor
  · rintro ⟨fuel, s', hcall, -⟩
    obtain ⟨id, hrun, -⟩ := unregisterTty_eq_some hcall
    exact ⟨fuel, id, hrun⟩
  · rintro ⟨fuel, id, hrun⟩
    exact ⟨fuel, _, unregisterTty_of_run hlock hrun, rfl⟩

/-- Whoever returns has released the lock. -/
theorem ttyLock_step (hlock : s.ttyLock = false) (hstep : s.step e = some s') : s'.ttyLock = false := by
  cases e with
  | registerTty t buffer =>
    obtain ⟨id, -, rfl⟩ := registerTty_eq_some hstep
    rfl
  | unregisterTty t buffer =>
    obtain ⟨id, -, rfl⟩ := unregisterTty_eq_some hstep
    rfl
  | createThread creator t =>
    cases hstep
    exact hlock

theorem ttyLock_of_run {ttyBuffers : UInt8 → TtySlot} {ttyId : ℕ → UInt8} {events : List Event}
    (hrun : Trace.run step (start ttyBuffers ttyId) events = some s) : s.ttyLock = false :=
  Trace.run_invariant (I := fun s => s.ttyLock = false) (fun _ _ _ h hstep => ttyLock_step h hstep) rfl hrun

/-- **When the calls finish.** In every reachable state `registerTty` does, exactly when some slot is not
in use, and `unregisterTty` exactly when the address of the buffer is in some slot. -/
theorem calls_finish_iff {ttyBuffers : UInt8 → TtySlot} {ttyId : ℕ → UInt8} {events : List Event}
    (hrun : Trace.run step (start ttyBuffers ttyId) events = some s) (t : ℕ) (buffer : UInt64) :
    (s.RegisterFinishes t buffer ↔ ∃ id, (s.ttyBuffers id).used = false) ∧
      (s.UnregisterFinishes t buffer ↔ ∃ id, (s.ttyBuffers id).buffer = buffer) := by
  have hlock := ttyLock_of_run hrun
  rw [RegisterFinishes, UnregisterFinishes, registerTty_returns_iff hlock,
    unregisterTty_returns_iff hlock]
  constructor
  · refine and_iff_left_of_imp fun ⟨id, hfree⟩ hall => ?_
    rw [hall id] at hfree
    cases hfree
  · exact and_iff_left_of_imp fun ⟨id, haddress⟩ hall => absurd haddress (hall id)

/-! ### A full array -/

/-- The first `n` slots are in use, and no slot has the address 6. -/
def Filled (n : ℕ) (s : TtyRegistry) : Prop :=
  s.ttyLock = false ∧ (∀ id, (s.ttyBuffers id).used = decide (id.toNat < n)) ∧
    ∀ id, (s.ttyBuffers id).buffer ≠ 6

/-- `registerTty` fills the next slot. -/
theorem Filled.registerTty {n : ℕ} (h : s.Filled n) (hn : n < 256) :
    ∃ s', s.step (.registerTty 0 5) = some s' ∧ s'.Filled (n + 1) := by
  obtain ⟨hlock, hused, haddress⟩ := h
  have hnext : (UInt8.ofNat n).toNat = n := by rw [UInt8.toNat_ofNat', Nat.mod_eq_of_lt hn]
  have hfind : findSlot s.ttyBuffers (fun slot => !slot.used) = some (.ofNat n) := by
    apply findSlot_of_first
    · rw [hused, hnext]
      simp
    · intro j hj
      rw [UInt8.lt_iff_toNat_lt, hnext] at hj
      simp [hused, hj]
  refine ⟨_, registerTty_of_run hlock hfind, rfl, fun id => ?_, fun id => ?_⟩
  all_goals dsimp only
  · by_cases hid : id = .ofNat n
    · simp [hid, Nat.mod_eq_of_lt hn]
    · have hne : id.toNat ≠ n := fun h => hid (UInt8.toNat_inj.1 (h.trans hnext.symm))
      rw [Function.update_of_ne hid, hused]
      exact decide_eq_decide.2 (by omega)
  · by_cases hid : id = .ofNat n
    · rw [hid, Function.update_self]
      show (5 : UInt64) ≠ 6
      decide
    · rw [Function.update_of_ne hid]
      exact haddress id

/-- 256 calls of `registerTty` fill the array. -/
theorem exists_filled {n : ℕ} (hn : n ≤ 256) :
    ∃ s, Trace.run step (start (fun _ => ⟨false, 0, 0⟩) fun _ => 0)
      (List.replicate n (.registerTty 0 5)) = some s ∧ s.Filled n := by
  induction n with
  | zero =>
    refine ⟨_, rfl, rfl, fun id => ?_, fun id => ?_⟩
    · simp [start, initTty]
    · simp [start, initTty]
  | succ n ih =>
    obtain ⟨s, hrun, hfilled⟩ := ih (by omega)
    obtain ⟨s', hstep, hfilled'⟩ := hfilled.registerTty (by omega)
    refine ⟨s', ?_, hfilled'⟩
    rw [List.replicate_succ', Trace.run_append, hrun, Option.bind_some, Trace.run_cons, hstep]
    rfl

/-- Two threads register a buffer each, and the first one takes its buffer back. -/
def twoRegistered : List Event :=
  [.registerTty 0 300, .createThread 0 1, .registerTty 1 400, .unregisterTty 0 300]

/-- After that a further buffer can be registered, and the second one be taken back. -/
theorem calls_finish_twoRegistered :
    ∃ s, Trace.run step (start (fun _ => ⟨false, 0, 0⟩) fun _ => 0) twoRegistered = some s ∧
      s.ttyBuffers 0 = ⟨false, 0, 300⟩ ∧ s.ttyBuffers 1 = ⟨true, 0, 400⟩ ∧
      s.RegisterFinishes 1 500 ∧ s.UnregisterFinishes 1 400 := by
  have hrun : ∃ s, Trace.run step (start (fun _ => ⟨false, 0, 0⟩) fun _ => 0) twoRegistered = some s ∧
      s.ttyBuffers 0 = ⟨false, 0, 300⟩ ∧ s.ttyBuffers 1 = ⟨true, 0, 400⟩ := ⟨_, rfl, rfl, rfl⟩
  obtain ⟨s, hrun, hfirst, hsecond⟩ := hrun
  exact ⟨s, hrun, hfirst, hsecond, (calls_finish_iff hrun 1 500).1.2 ⟨0, by rw [hfirst]⟩,
    (calls_finish_iff hrun 1 400).2.2 ⟨1, by rw [hsecond]⟩⟩

/-- After 256 calls of `registerTty` the next one never returns, and neither does an `unregisterTty` of a
buffer that was not registered. -/
theorem full_array_spins :
    ∃ s, Trace.run step (start (fun _ => ⟨false, 0, 0⟩) fun _ => 0)
        (List.replicate 256 (.registerTty 0 5)) = some s ∧
      ¬ s.RegisterFinishes 0 6 ∧ ¬ s.UnregisterFinishes 0 6 := by
  obtain ⟨s, hrun, hlock, hused, haddress⟩ := exists_filled (n := 256) le_rfl
  refine ⟨s, hrun, fun h => ?_, fun h => ?_⟩
  · obtain ⟨id, hfree⟩ := (registerTty_returns_iff hlock).1 h.1
    rw [hused, decide_eq_false_iff_not] at hfree
    exact hfree id.toNat_lt
  · obtain ⟨id, hid⟩ := (unregisterTty_returns_iff hlock).1 h.1
    exact haddress id hid

end TtyRegistry

end Naul
