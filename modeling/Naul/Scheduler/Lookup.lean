import Naul.Scheduler.Ring
import Naul.Scheduler.Wake
import Naul.Allocator.Update

/-!
# Looking up an id

`waitForThread` and `destroyThread` search the ring for an id, both with interrupts disabled. The first
stops when it is back at `threads`. The second has no such test: with an id that no thread has it does not
return, and interrupts stay disabled (`destroyThread_diverges`). An id can be out of date, as threads exit
between the call that returned it and its use.
-/

namespace Naul

open LinkRing

namespace Scheduler

/-- What the two functions read and write: the links of the ring and of the waiting list, the fields of the
threads, the entries, the table of the allocator, and whether interrupts are enabled. -/
structure Globals where
  threads : Links ℕ
  id : ℕ → ℕ
  waiting : ℕ → Bool
  stack : ℕ → UInt64
  record : ℕ → UInt64
  waitingList : ℕ
  entries : Links ℕ
  contents : ℕ → WaitingEntry
  table : Allocator
  interrupts : Bool

/-- `waitForThread(id)` up to `if (found)`, and the variable `found`. Without it, this is all it does. -/
def lookup (fuel : ℕ) (id : ℕ) (s : Globals) : Option (Bool × Globals) := do
  let s := { s with interrupts := false }
  let found ← findId fuel s.threads s.id id
  return (found.isSome, { s with interrupts := true })

/-- `destroyThread(id)`. -/
def destroyThread (fuel : ℕ) (id : ℕ) (s : Globals) : Option Globals := do
  let w ← wakeJoiners fuel s.waitingList s.contents (Remover.destroyThread.id s.id 0 id) s.entries s.waiting
  let s := { s with entries := w.links, waiting := w.waiting, interrupts := false }
  let current ← awaitId fuel s.threads s.id id
  let s := { s with threads := unlinkList s.threads current, interrupts := true }
  let table ← s.table.unallocate fuel (s.stack current)
  let table ← table.unallocate fuel (s.record current)
  return { s with table := table }

/-- The searches end: the two of the ring, and that of the waiting list. -/
def SearchesEnd (s : Globals) (id : ℕ) : Prop :=
  (∃ fuel r, lookup fuel id s = some r) ∧
    (∃ fuel w, wakeJoiners fuel s.waitingList s.contents id s.entries s.waiting = some w) ∧
    ∃ fuel t, awaitId fuel s.threads s.id id = some t

/-- Both calls return and leave everything as it was, with interrupts enabled. -/
def LeavesAlone (s : Globals) (id : ℕ) : Prop :=
  (∃ fuel, lookup fuel id s = some (false, { s with interrupts := true })) ∧
    ∃ fuel s', destroyThread fuel id s = some s' ∧ s'.threads = s.threads ∧ s'.entries = s.entries ∧
      s'.waiting = s.waiting ∧ s'.table = s.table ∧ s'.interrupts = true

variable {s : Globals} {ring xs : List ℕ} {id : ℕ}

/-- `waitForThread` finds whether a thread has the id. -/
theorem lookup_eq (h : Linked s.threads ring) (id : ℕ) :
    lookup ring.length id s =
      some ((ring.find? fun t => s.id t = id).isSome, { s with interrupts := true }) := by
  simp only [lookup, findId_eq h, bind, Option.bind_some, pure]

theorem find?_eq_none_iff : ring.find? (fun t => s.id t = id) = none ↔ ∀ t ∈ ring, s.id t ≠ id := by
  simp

/-- **With an id that no thread has, `destroyThread` does not return.** -/
theorem destroyThread_diverges (h : Linked s.threads ring) (hnone : ∀ t ∈ ring, s.id t ≠ id) (fuel : ℕ) :
    destroyThread fuel id s = none := by
  simp only [destroyThread, awaitId_diverges h (find?_eq_none_iff.2 hnone), bind, Option.bind_none,
    Option.bind_fun_none]

/-- **When the calls are sound for an id.** The searches end, and an id that no thread has leaves everything
as it was, if and only if a thread of the ring has the id. -/
theorem lookups_end_iff (h : Linked s.threads ring) (hxs : IsRing s.entries s.waitingList xs) (id : ℕ) :
    (SearchesEnd s id ∧ ((∀ t ∈ ring, s.id t ≠ id) → LeavesAlone s id)) ↔ ∃ t ∈ ring, s.id t = id := by
  constructor
  · rintro ⟨⟨-, -, fuel, t, hawait⟩, -⟩
    by_contra hex
    have hnone : ∀ t ∈ ring, s.id t ≠ id := fun t ht hid => hex ⟨t, ht, hid⟩
    rw [awaitId_diverges h (find?_eq_none_iff.2 hnone)] at hawait
    cases hawait
  · rintro ⟨t, ht, hid⟩
    refine ⟨⟨⟨_, _, lookup_eq h id⟩, ?_, ?_⟩, fun hnone => absurd hid (hnone t ht)⟩
    · obtain ⟨w, hwake, -⟩ := @Passed.run _ _ _ s.contents id _ [] xs (passed_start hxs s.waiting)
      exact ⟨_, w, hwake⟩
    · cases hfind : ring.find? fun t => s.id t = id with
      | none => exact absurd hid (find?_eq_none_iff.1 hfind t ht)
      | some u => exact ⟨_, u, awaitId_eq h hfind⟩

/-- The kernel's thread alone in the ring, and nobody who waits. -/
def aloneInRing : Globals where
  threads := emptyRing ℕ
  id := fun _ => 0
  waiting := fun _ => false
  stack := fun _ => 0
  record := fun _ => 0
  waitingList := 0
  entries := emptyRing ℕ
  contents := fun _ => ⟨0, 0⟩
  table := Allocator.initAllocator fun _ => ⟨false, 0, 0⟩
  interrupts := true

theorem linked_aloneInRing : Linked aloneInRing.threads [0] := ⟨[], rfl, isRing_emptyRing 0⟩

/-- The kernel's thread and two others, of which the first waits for the second. -/
def threeInRing : Globals where
  threads := linkList (linkList (emptyRing ℕ) 0 1) 0 2
  id := fun t => if t = 0 then 0 else t + 6
  waiting := fun t => t = 1
  stack := fun _ => 0
  record := fun _ => 0
  waitingList := 0
  entries := linkList (emptyRing ℕ) 0 1
  contents := fun _ => ⟨8, 1⟩
  table := Allocator.initAllocator fun _ => ⟨false, 0, 0⟩
  interrupts := true

theorem lookups_end_threeInRing : SearchesEnd threeInRing 8 := by
  have hone : IsRing (linkList (emptyRing ℕ) 0 1) 0 [1] := isRing_linkList (isRing_emptyRing 0) (by decide)
  have hlinked : Linked threeInRing.threads [0, 1, 2] := ⟨[1, 2], rfl, isRing_linkList hone (by decide)⟩
  exact ((lookups_end_iff hlinked hone 8).2 ⟨2, by decide, rfl⟩).1

/-- The id 5 belongs to no thread: `waitForThread` returns, and `destroyThread` does not. -/
theorem destroyThread_stale_id :
    (lookup 1 5 aloneInRing).map Prod.fst = some false ∧ (∀ fuel, destroyThread fuel 5 aloneInRing = none) ∧
      ¬ SearchesEnd aloneInRing 5 := by
  have hnone : ∀ t ∈ [0], aloneInRing.id t ≠ 5 := by decide
  refine ⟨by decide, fun fuel => destroyThread_diverges linked_aloneInRing hnone fuel, ?_⟩
  rintro ⟨-, -, fuel, t, hawait⟩
  rw [awaitId_diverges linked_aloneInRing (find?_eq_none_iff.2 hnone)] at hawait
  cases hawait

end Scheduler

end Naul
