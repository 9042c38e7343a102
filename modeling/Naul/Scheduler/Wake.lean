import Naul.Scheduler.Machine
import Naul.List

/-!
# The loop that wakes the joiners

`exitThread` and `destroyThread` go through `waitingList`, wake the thread of each entry with the id of
the thread that ends, and unlink the entry. The list changes under the iteration: after an entry has been
unlinked, `entry` goes back to the one before it, which may be the sentinel.

`wakeJoiners_eq` says what the loop leaves. The machine has the list by its entries and the loop by
positions in it; `wakeTurn_simulated` takes each turn of the loop over to the machine.
-/

namespace Naul

open LinkRing

/-- What `entry->id` is compared with: `currentThread->id`, or the argument `id`. -/
def Remover.id (ids : ℕ → ℕ) (currentThread id : ℕ) : Remover → ℕ
  | .exitThread => ids currentThread
  | .destroyThread => id

namespace Scheduler

variable {α : Type*} [DecidableEq α]

/-- The links of the list, the flags of the threads, and the variable `entry`. -/
structure Waking (α : Type*) where
  links : Links α
  waiting : ℕ → Bool
  entry : α

/-- One turn of `while (iterateList(&waitingList, (List**)&entry))`. -/
def wakeTurn (waitingList : α) (contents : α → WaitingEntry) (id : ℕ) (s : Waking α) :
    Waking α ⊕ Waking α :=
  let entry := s.links.next s.entry
  if entry = waitingList then .inr { s with entry := entry }
  else if (contents entry).id = id then
    .inl {
      links := unlinkList s.links entry
      waiting := Function.update s.waiting (contents entry).thread false
      entry := s.links.prev entry }
  else .inl { s with entry := entry }

/-- The loop; `contents` is what is in the entry at an address. -/
def wakeJoiners (fuel : ℕ) (waitingList : α) (contents : α → WaitingEntry) (id : ℕ) (links : Links α)
    (waiting : ℕ → Bool) : Option (Waking α) :=
  WhileLoop.run (wakeTurn waitingList contents id) fuel ⟨links, waiting, waitingList⟩

variable {head : α} {contents : α → WaitingEntry} {id : ℕ} {w w' : Waking α} {xs ys zs : List α} {z : α}

/-- The loop has passed the elements `ys`, and the elements `zs` are ahead. -/
structure Passed (head : α) (ys zs : List α) (w : Waking α) : Prop where
  ring : IsRing w.links head (ys ++ zs)
  last : ∃ ps, head :: ys = ps ++ [w.entry]

theorem Passed.turn_nil (h : Passed head ys [] w) :
    wakeTurn head contents id w = .inr { w with entry := head } := by
  obtain ⟨ps, hps⟩ := h.last
  have hring := h.ring
  rw [List.append_nil] at hring
  have hnext := (hring.linked_last hps).1
  simp only [wakeTurn, hnext, if_true]

omit [DecidableEq α] in
theorem Passed.linked (h : Passed head ys (z :: zs) w) : LinkRing.Linked w.links w.entry z := by
  obtain ⟨ps, hps⟩ := h.last
  have hsplit : head :: (ys ++ z :: zs) = ps ++ w.entry :: z :: zs := by
    rw [← List.cons_append, hps, List.append_assoc, List.singleton_append]
  exact h.ring.linked hsplit

/-- An entry with another id is passed. -/
theorem Passed.turn_ne (h : Passed head ys (z :: zs) w) (hid : (contents z).id ≠ id) :
    wakeTurn head contents id w = .inl { w with entry := z } ∧
      Passed head (ys ++ [z]) zs { w with entry := z } := by
  have hz : z ≠ head := h.ring.ne_head (List.mem_append_right ys List.mem_cons_self)
  refine ⟨?_, ⟨?_, head :: ys, by rw [List.cons_append]⟩⟩
  · simp only [wakeTurn, h.linked.1, if_neg hz, if_neg hid]
  · rw [List.append_assoc, List.singleton_append]
    exact h.ring

/-- An entry with the id is unlinked, and `entry` is where it was. -/
theorem Passed.turn_eq (h : Passed head ys (z :: zs) w) (hid : (contents z).id = id) :
    ∃ l, wakeTurn head contents id w =
        .inl ⟨l, Function.update w.waiting (contents z).thread false, w.entry⟩ ∧
      Passed head ys zs ⟨l, Function.update w.waiting (contents z).thread false, w.entry⟩ := by
  have hz : z ≠ head := h.ring.ne_head (List.mem_append_right ys List.mem_cons_self)
  refine ⟨unlinkList w.links z, ?_, ⟨isRing_unlinkList h.ring, h.last⟩⟩
  simp only [wakeTurn, h.linked.1, if_neg hz, if_pos hid, h.linked.2]

/-- What the loop leaves from any place in the list on. -/
theorem Passed.run (h : Passed head ys zs w) :
    ∃ w', WhileLoop.run (wakeTurn head contents id) (zs.length + 1) w = some w' ∧
      IsRing w'.links head (ys ++ zs.filter fun e => (contents e).id ≠ id) ∧
      ∀ t, w'.waiting t =
        if ∃ e ∈ zs, (contents e).id = id ∧ (contents e).thread = t then false else w.waiting t := by
  -- the list that is left shrinks by the entry ahead, whether it is passed or unlinked
  induction zs generalizing ys w with
  | nil => exact ⟨_, WhileLoop.run_succ_inr h.turn_nil 0, h.ring, fun t => by simp⟩
  | cons z zs ih =>
    by_cases hid : (contents z).id = id
    · obtain ⟨l, hturn, hpassed⟩ := h.turn_eq hid
      obtain ⟨w', hrun, hring, hwaiting⟩ := ih hpassed
      refine ⟨w', ?_, ?_, fun t => ?_⟩
      · rw [List.length_cons, WhileLoop.run_succ_inl hturn, hrun]
      · rwa [List.filter_cons_of_neg (by simpa using hid)]
      · rw [hwaiting t]
        by_cases ht : (contents z).thread = t
        · simp [hid, ht]
        · simp [hid, ht, Function.update_of_ne (Ne.symm ht)]
    · obtain ⟨hturn, hpassed⟩ := h.turn_ne hid
      obtain ⟨w', hrun, hring, hwaiting⟩ := ih hpassed
      refine ⟨w', ?_, ?_, fun t => ?_⟩
      · rw [List.length_cons, WhileLoop.run_succ_inl hturn, hrun]
      · rw [List.filter_cons_of_pos (by simpa using hid), List.append_cons]
        exact hring
      · rw [hwaiting t]
        simp [hid]

omit [DecidableEq α] in
theorem passed_start {l : Links α} (h : IsRing l head xs) (waiting : ℕ → Bool) :
    Passed head [] xs ⟨l, waiting, head⟩ := ⟨h, [], rfl⟩

/-- **The joiners are woken, and nobody else.** In `exitThread` and in `destroyThread` the loop ends, the
list is left with the entries of other ids, in their order and linked both ways, and the flags that have
been cleared are those of the threads of the entries that are gone. -/
theorem wakeJoiners_eq {l : Links α} (h : IsRing l head xs) (contents : α → WaitingEntry)
    (waiting : ℕ → Bool) (ids : ℕ → ℕ) (currentThread id : ℕ) (r : Remover) :
    ∃ fuel w, wakeJoiners fuel head contents (r.id ids currentThread id) l waiting = some w ∧
      IsRing w.links head (xs.filter fun e => (contents e).id ≠ r.id ids currentThread id) ∧
      ∀ t, w.waiting t =
        if ∃ e ∈ xs, (contents e).id = r.id ids currentThread id ∧ (contents e).thread = t then false
        else waiting t := by
  obtain ⟨w, hrun, hring, hwaiting⟩ :=
    @Passed.run _ _ head contents (r.id ids currentThread id) _ [] xs (passed_start h waiting)
  exact ⟨_, w, hrun, hring, hwaiting⟩

/-- Three entries, of which the first two are those of joiners. -/
def threeEntries : Links ℕ := ⟨fun a => (a + 1) % 4, fun a => (a + 3) % 4⟩

theorem isRing_threeEntries : IsRing threeEntries 0 [1, 2, 3] := by
  constructor
  · decide
  · simp [threeEntries, LinkRing.Linked]

/-- Threads 4 and 5 wait for the id 7, and thread 6 for the id 8. -/
theorem wakeJoiners_eq_two :
    ∃ fuel w, wakeJoiners fuel 0 (fun e => ⟨if e = 3 then 8 else 7, e + 3⟩) 7 threeEntries (fun _ => true) =
        some w ∧ IsRing w.links 0 [3] ∧ (w.waiting 4, w.waiting 5, w.waiting 6) = (false, false, true) := by
  obtain ⟨fuel, w, hrun, hring, hwaiting⟩ := wakeJoiners_eq isRing_threeEntries
    (fun e => ⟨if e = 3 then 8 else 7, e + 3⟩) (fun _ => true) (fun _ => 7) 0 0 .exitThread
  exact ⟨fuel, w, hrun, hring, by rw [hwaiting, hwaiting, hwaiting]; decide⟩

/-! ### The turns of the machine -/

variable {s : Scheduler} {r : Remover}

/-- The machine is at the same place of the same list. -/
structure Mirrors (head : α) (contents : α → WaitingEntry) (id : ℕ) (r : Remover) (s : Scheduler)
    (ys zs : List α) (w : Waking α) : Prop where
  passed : Passed head ys zs w
  listed : s.waitingList = (ys ++ zs).map contents
  flags : s.waiting = w.waiting
  place : s.pc s.currentThread = .remove (.scanning ys.length) r id

/-- **Each turn of the loop is one or two steps of the machine**: one that passes an entry, or the store of
the flag and the removal. -/
theorem wakeTurn_simulated (h : Mirrors head contents id r s ys zs w)
    (hturn : wakeTurn head contents id w = .inl w') :
    ∃ es s' ys' zs', Trace.run step s es = some s' ∧ (∀ e ∈ es, e = .advance) ∧ es.length ≤ 2 ∧
      Mirrors head contents id r s' ys' zs' w' := by
  cases zs with
  | nil =>
    rw [h.passed.turn_nil] at hturn
    cases hturn
  | cons z zs =>
    have hget : s.waitingList[ys.length]? = some (contents z) := by simp [h.listed]
    by_cases hid : (contents z).id = id
    · obtain ⟨l, hturn', hpassed⟩ := h.passed.turn_eq hid
      rw [hturn'] at hturn
      cases hturn
      let s₁ := (s.goto (.remove (.cleared ys.length) r id)).setWaiting (contents z).thread false
      let s₂ := { s₁.goto (.remove (.scanning ys.length) r id) with
        waitingList := s₁.waitingList.eraseIdx ys.length }
      have hclear : s.step .advance = some s₁ := by
        simp only [step, advance, h.place, remove, hget, if_pos hid, s₁]
      have hunlink : s₁.step .advance = some s₂ := by
        simp only [step, advance, s₁, setWaiting, goto, Function.update_self, remove]
        rfl
      refine ⟨[.advance, .advance], s₂, ys, zs, ?_, by simp, le_rfl, hpassed, ?_, ?_, ?_⟩
      · rw [Trace.run_cons, hclear, Option.bind_some, Trace.run_cons, hunlink, Option.bind_some,
          Trace.run_nil]
      · show s.waitingList.eraseIdx ys.length = (ys ++ zs).map contents
        rw [h.listed, List.map_append, List.eraseIdx_append_of_length_le (by simp), List.length_map,
          Nat.sub_self, List.map_cons, List.eraseIdx_cons_zero, List.map_append]
      · show Function.update s.waiting _ _ = _
        rw [h.flags]
      · exact Function.update_self ..
    · obtain ⟨hturn', hpassed⟩ := h.passed.turn_ne hid
      rw [hturn'] at hturn
      cases hturn
      refine ⟨[.advance], s.goto (.remove (.scanning (ys.length + 1)) r id), ys ++ [z], zs, ?_, by simp,
        by simp, hpassed, ?_, h.flags, ?_⟩
      · simp only [Trace.run_cons, Trace.run_nil, step, advance, h.place, remove, hget, if_neg hid,
          Option.bind_some]
      · rw [List.append_assoc]
        exact h.listed
      · simp [goto]

/-- Where the loop ends, the machine goes on to `unlock`, with the same list and flags. -/
theorem wakeTurn_ends (h : Mirrors head contents id r s ys zs w)
    (hturn : wakeTurn head contents id w = .inr w') :
    s.step .advance = some (s.goto (.remove .scanned r id)) ∧ zs = [] ∧ w'.waiting = s.waiting := by
  cases zs with
  | nil =>
    rw [h.passed.turn_nil] at hturn
    cases hturn
    have hget : s.waitingList[ys.length]? = none := by simp [h.listed]
    refine ⟨?_, rfl, h.flags.symm⟩
    simp only [step, advance, h.place, remove, hget]
  | cons z zs =>
    by_cases hid : (contents z).id = id
    · obtain ⟨l, hturn', -⟩ := h.passed.turn_eq hid
      rw [hturn'] at hturn
      cases hturn
    · rw [(h.passed.turn_ne hid).1] at hturn
      cases hturn

end Scheduler

end Naul
