import Naul.List
import Mathlib.Data.List.MinMax

/-!
# The sleeping list and the comparator (`os/src/hpet.c`)

A sleeping thread has an entry, on its own stack, in the ring `sleepingList`: the counter value it
waits for and the thread. The timer has one comparator; `updateTimer` sets it to the entry that is
soonest, by unsigned distance from the counter, and the interrupt handler `hpet` wakes the first
entry equal to the comparator.

The functions here are the critical sections of the source, over the ring itself; the counter value
that `updateTimer` reads is an argument. `updateTimer_eq`, `hpet_eq`, `waitFemtoseconds_eq` and
`cancelWait_eq` say what they do to the sequence of entries.
-/

namespace Naul

open LinkRing

/-- The fields of a `SleepingEntry` after its header; `thread` is the address of a `Thread`. -/
structure SleepingEntry where
  time : UInt64
  thread : UInt64
  deriving DecidableEq

/-- The variable `sleepingList` (its address, and the links of the nodes), the memory its entries and
the threads are in, and the comparator register. -/
structure Hpet where
  sleepingList : UInt64
  links : Links UInt64
  entry : UInt64 → SleepingEntry
  id : UInt64 → UInt64
  waiting : UInt64 → Bool
  comparator : UInt64

/-- `(femtoseconds / femtosecondsPerTick) + counter`. -/
def sleepTime (femtoseconds femtosecondsPerTick counter : UInt64) : UInt64 :=
  femtoseconds / femtosecondsPerTick + counter

namespace Hpet

/-- `if (!soonest || (entry->time - value) < (soonest->time - value)) { soonest = entry; }`. -/
def sooner (h : Hpet) (value : UInt64) (soonest : Option UInt64) (entry : UInt64) : Option UInt64 :=
  match soonest with
  | none => some entry
  | some s =>
    if (h.entry entry).time - value < (h.entry s).time - value then some entry else some s

/-- `updateTimer()`, where the counter reads `value`. -/
def updateTimer (fuel : ℕ) (value : UInt64) (h : Hpet) : Option Hpet := do
  let soonest ← WhileLoop.run (iterate h.links h.sleepingList
    (fun soonest entry => .inl (h.sooner value soonest entry)) fun soonest => soonest) fuel
    (none, h.sleepingList)
  match soonest with
  | none => return h
  | some s => return { h with comparator := (h.entry s).time }

/-- `entry->thread->waiting = false; unlinkList(&entry->header)`. -/
def wake (h : Hpet) (entry : UInt64) : Hpet :=
  { h with
    waiting := Function.update h.waiting (h.entry entry).thread false
    links := unlinkList h.links entry }

/-- `hpet()`. The flag `found` is set exactly when the search is left at an entry. -/
def hpet (fuel : ℕ) (value : UInt64) (h : Hpet) : Option Hpet := do
  let entry ← findElement fuel h.links h.sleepingList fun e => (h.entry e).time = h.comparator
  if entry ≠ h.sleepingList then updateTimer fuel value (h.wake entry) else return h

/-- `linkList(&sleepingList, &entry.header); currentThread->waiting = true`, where `e` are the
contents of `entry`. -/
def sleep (h : Hpet) (entry : UInt64) (e : SleepingEntry) : Hpet :=
  { h with
    links := linkList h.links h.sleepingList entry
    entry := Function.update h.entry entry e
    waiting := Function.update h.waiting e.thread true }

/-- `waitFemtoseconds(femtoseconds)` between `cli` and `sti`. -/
def waitFemtoseconds (fuel : ℕ) (entry : UInt64) (e : SleepingEntry) (value : UInt64) (h : Hpet) :
    Option Hpet :=
  updateTimer fuel value (h.sleep entry e)

/-- `cancelWait(id)`. -/
def cancelWait (fuel : ℕ) (id value : UInt64) (h : Hpet) : Option Hpet := do
  let entry ← findElement fuel h.links h.sleepingList fun e => h.id (h.entry e).thread = id
  updateTimer fuel value (h.wake entry)

/-! ### The soonest entry -/

/-- The first entry with the least distance from `value`. -/
def soonest (value : UInt64) (entries : List SleepingEntry) : Option SleepingEntry :=
  entries.argmin fun e => (e.time - value).toNat

variable {h h' : Hpet} {xs ys zs : List UInt64} {value a : UInt64}

theorem foldl_sooner (h : Hpet) (value : UInt64) (xs : List UInt64) (s : Option UInt64) :
    (xs.foldl (h.sooner value) s).map h.entry =
      (xs.map h.entry).foldl
        (List.argAux fun b c => (b.time - value).toNat < (c.time - value).toNat) (s.map h.entry) := by
  induction xs generalizing s with
  | nil => rfl
  | cons x xs ih =>
    rw [List.foldl_cons, ih, List.map_cons, List.foldl_cons]
    congr 1
    cases s with
    | none => rfl
    | some c =>
      simp only [sooner, List.argAux, Option.map_some, UInt64.lt_iff_toNat_lt]
      split_ifs <;> rfl

/-- The comparator after `updateTimer`. -/
def comparatorFor (value : UInt64) (entries : List SleepingEntry) (comparator : UInt64) : UInt64 :=
  match soonest value entries with
  | none => comparator
  | some e => e.time

/-- `updateTimer` sets the comparator for the entries of the ring, and nothing else. -/
theorem updateTimer_eq (hring : IsRing h.links h.sleepingList xs) (value : UInt64) :
    updateTimer (xs.length + 1) value h =
      some { h with comparator := comparatorFor value (xs.map h.entry) h.comparator } := by
  have hfold := foldl_sooner h value xs none
  rw [Option.map_none] at hfold
  simp only [updateTimer, run_iterate hring, foldUntil_foldl, bind, Option.bind_some]
  rw [comparatorFor, soonest, List.argmin, ← hfold]
  cases xs.foldl (h.sooner value) none <;> rfl

theorem updateTimer_mono {m n : ℕ} (hmn : m ≤ n) (hrun : updateTimer m value h = some h') :
    updateTimer n value h = some h' := by
  simp only [updateTimer, bind, Option.bind_eq_some_iff] at hrun ⊢
  obtain ⟨s, hs, hres⟩ := hrun
  exact ⟨s, WhileLoop.run_mono hmn hs, hres⟩

/-! ### The critical sections -/

theorem isRing_wake (hring : IsRing h.links h.sleepingList (ys ++ a :: zs)) :
    IsRing (h.wake a).links (h.wake a).sleepingList (ys ++ zs) := isRing_unlinkList hring

/-- Waking an entry and rearming the timer: the step shared by the interrupt and by `cancelWait`. -/
theorem updateTimer_wake (hring : IsRing h.links h.sleepingList (ys ++ a :: zs)) (value : UInt64) :
    updateTimer ((ys ++ a :: zs).length + 1) value (h.wake a) =
      some { h.wake a with
        comparator := comparatorFor value ((ys ++ zs).map h.entry) h.comparator } :=
  updateTimer_mono (by simp) (updateTimer_eq (isRing_wake hring) value)

/-- The interrupt wakes the first entry equal to the comparator. -/
theorem hpet_eq (hring : IsRing h.links h.sleepingList (ys ++ a :: zs))
    (hys : ∀ y ∈ ys, (h.entry y).time ≠ h.comparator) (ha : (h.entry a).time = h.comparator)
    (value : UInt64) :
    hpet ((ys ++ a :: zs).length + 1) value h =
      some { h.wake a with
        comparator := comparatorFor value ((ys ++ zs).map h.entry) h.comparator } := by
  have hfound := findElement_first (p := fun e => decide ((h.entry e).time = h.comparator)) hring
    (fun y hy => by simp [hys y hy]) (by simp [ha])
  have hne : a ≠ h.sleepingList := hring.ne_head (by simp)
  simp only [hpet, hfound, bind, Option.bind_some, ne_eq, hne, not_false_eq_true, if_true,
    updateTimer_wake hring]

/-- An interrupt that finds no entry equal to the comparator changes nothing. -/
theorem hpet_absent (hring : IsRing h.links h.sleepingList xs)
    (hxs : ∀ x ∈ xs, (h.entry x).time ≠ h.comparator) (value : UInt64) :
    hpet (xs.length + 1) value h = some h := by
  have hfound := findElement_absent (p := fun e => decide ((h.entry e).time = h.comparator)) hring
    fun x hx => by simp [hxs x hx]
  simp [hpet, hfound]

theorem isRing_sleep (hring : IsRing h.links h.sleepingList xs) (ha : a ∉ h.sleepingList :: xs)
    (e : SleepingEntry) : IsRing (h.sleep a e).links (h.sleep a e).sleepingList (xs ++ [a]) :=
  isRing_linkList hring ha

theorem map_sleep_entry (ha : a ∉ xs) (e : SleepingEntry) :
    (xs ++ [a]).map (h.sleep a e).entry = xs.map h.entry ++ [e] := by
  have hxs : xs.map (h.sleep a e).entry = xs.map h.entry := by
    refine List.map_congr_left fun x hx => ?_
    have hxa : x ≠ a := fun hxa => ha (hxa ▸ hx)
    simp [sleep, hxa]
  rw [List.map_append, List.map_singleton, hxs]
  simp [sleep]

/-- `waitFemtoseconds` appends the entry. -/
theorem waitFemtoseconds_eq (hring : IsRing h.links h.sleepingList xs)
    (ha : a ∉ h.sleepingList :: xs) (e : SleepingEntry) (value : UInt64) :
    waitFemtoseconds (xs.length + 2) a e value h =
      some { h.sleep a e with
        comparator := comparatorFor value (xs.map h.entry ++ [e]) h.comparator } := by
  have hrun := updateTimer_eq (isRing_sleep hring ha e) value
  rw [map_sleep_entry (fun hx => ha (List.mem_cons_of_mem _ hx)), List.length_append] at hrun
  exact hrun

/-- `cancelWait` removes the first entry of a thread with the given id. -/
theorem cancelWait_eq (hring : IsRing h.links h.sleepingList (ys ++ a :: zs)) {id : UInt64}
    (hys : ∀ y ∈ ys, h.id (h.entry y).thread ≠ id) (ha : h.id (h.entry a).thread = id)
    (value : UInt64) :
    cancelWait ((ys ++ a :: zs).length + 1) id value h =
      some { h.wake a with
        comparator := comparatorFor value ((ys ++ zs).map h.entry) h.comparator } := by
  have hfound := findElement_first (p := fun e => decide (h.id (h.entry e).thread = id)) hring
    (fun y hy => by simp [hys y hy]) (by simp [ha])
  simp only [cancelWait, hfound, bind, Option.bind_some, updateTimer_wake hring]

/-- `cancelWait` of a thread that does not sleep unlinks the sentinel, and `updateTimer` returns from
the ring that leaves only when no thread sleeps. -/
theorem cancelWait_absent_iff (hring : IsRing h.links h.sleepingList xs) {id : UInt64}
    (hxs : ∀ x ∈ xs, h.id (h.entry x).thread ≠ id) (value : UInt64) :
    (∃ fuel h', cancelWait fuel id value h = some h' ∧ IsRing h'.links h.sleepingList xs) ↔
      xs = [] := by
  have hfound := findElement_absent (p := fun e => decide (h.id (h.entry e).thread = id)) hring
    fun x hx => by simp [hxs x hx]
  constructor
  · rintro ⟨fuel, h', hrun, -⟩
    by_contra hne
    simp only [cancelWait, bind, Option.bind_eq_some_iff] at hrun
    obtain ⟨e, he, hupdate⟩ := hrun
    rw [WhileLoop.run_unique he hfound] at hupdate
    -- the search for the soonest entry starts at the unlinked sentinel
    simp only [updateTimer, wake, traversal_diverges hring hne, bind, Option.bind_none] at hupdate
    cases hupdate
  · rintro rfl
    have hring' : IsRing (h.wake h.sleepingList).links (h.wake h.sleepingList).sleepingList [] :=
      (isRing_unlinkList_head hring).2 rfl
    have hrun := updateTimer_eq hring' value
    refine ⟨1, { h.wake h.sleepingList with comparator := _ }, ?_, hring'⟩
    simp only [cancelWait, bind]
    rw [show findElement 1 h.links h.sleepingList _ = some h.sleepingList from hfound]
    exact hrun

end Hpet

end Naul
