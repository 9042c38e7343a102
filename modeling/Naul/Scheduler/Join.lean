import Naul.Scheduler.Entries

/-!
# Waiting for a thread to leave

`waitForThread` searches the ring, links an entry and sets its flag, in three sections; `exitThread`
and `destroyThread` first wake the threads that have an entry, and then take the thread out of the
ring. A wake-up is lost when the two do not meet in this order, and `Orderly` says when they do. In a
run of such steps a thread that waits has its entry listed, and its target is in the ring.
-/

namespace Naul

/-- What a thread waits for or is about to: the id, and the thread that had it. A thread that has been
woken does not. -/
def Pc.joining (waiting : Bool) : Pc → Option (ℕ × ℕ)
  | .wait .flagged id target | .wait .yielded id target => if waiting then some (id, target) else none
  | .wait _ id target => some (id, target)
  | _ => none

/-- Between a successful search for `id` and `linkList`. -/
def Pc.unlinked (id : ℕ) : Pc → Bool
  | .wait .found i _ | .wait .locked i _ => i = id
  | _ => false

/-- Past the store of the flag in `waitForThread`. -/
def Pc.flagged : Pc → Bool
  | .wait .flagged _ _ | .wait .yielded _ _ => true
  | _ => false

theorem Pc.expects_of_false {p : Pc} {w : Bool} {id : ℕ} (h : p.expects false id = true) :
    p.expects w id = true := by
  cases p with
  | wait stage i target => cases stage <;> simp_all [Pc.expects]
  | _ => cases h

theorem Pc.joining_of_false {p : Pc} {w : Bool} {x : ℕ × ℕ} (h : p.joining false = some x) :
    p.joining w = some x := by
  cases p with
  | wait stage i target => cases stage <;> simp_all [Pc.joining]
  | _ => cases h

namespace Scheduler

/-- The step of the current thread, at `p`, comes in the right order.

* The loop meets the entry of a thread after the thread has set its flag.
* After the loop, at `unlock`, no thread is between its search for the id and `linkList`.
* A thread does not destroy itself. -/
def OrderlyAt (s : Scheduler) : Pc → Prop
  | .remove (.scanning pos) _ id =>
    ∀ e ∈ s.waitingList[pos]?, e.id = id → e.thread ∈ s.ring → (s.pc e.thread).flagged = true
  | .remove .scanned _ id => ∀ a ∈ s.ring, (s.pc a).unlinked id = false
  | .remove .unlocked .destroyThread id => s.threadWithId id ≠ some s.currentThread
  | _ => True

/-- The step comes in the right order: besides, no search finds a thread that is about to leave the
ring, after the loop that wakes the threads which wait for it. -/
def Orderly (s : Scheduler) : Event → Prop
  | .advance => s.OrderlyAt (s.pc s.currentThread)
  | .call (.waitForThread id) =>
    s.threadWithId id = none ∨
      ∀ r ∈ s.ring, s.pc r ≠ .remove .unlocked .exitThread id ∧
        s.pc r ≠ .remove .unlocked .destroyThread id
  | _ => True

instance decidableOrderlyAt (s : Scheduler) : ∀ p, Decidable (s.OrderlyAt p)
  | .remove (.scanning pos) _ id => inferInstanceAs (Decidable
      (∀ e ∈ s.waitingList[pos]?, e.id = id → e.thread ∈ s.ring → (s.pc e.thread).flagged = true))
  | .remove .scanned _ id =>
    inferInstanceAs (Decidable (∀ a ∈ s.ring, (s.pc a).unlinked id = false))
  | .remove .unlocked .destroyThread id =>
    inferInstanceAs (Decidable (s.threadWithId id ≠ some s.currentThread))
  | .running | .wait .. | .sleep _ | .freeStack _ | .freeRecord _ | .cleaner _ => isTrue trivial
  | .remove .called .. | .remove (.cleared _) .. | .remove .unlocked .exitThread _ => isTrue trivial

instance decidableOrderly (s : Scheduler) : ∀ e, Decidable (s.Orderly e)
  | .advance => decidableOrderlyAt s _
  | .call (.waitForThread id) => inferInstanceAs (Decidable (s.threadWithId id = none ∨
      ∀ r ∈ s.ring, s.pc r ≠ .remove .unlocked .exitThread id ∧
        s.pc r ≠ .remove .unlocked .destroyThread id))
  | .call .createThread | .call (.waitFemtoseconds _) | .call (.cancelWait _) => isTrue trivial
  | .call .exitThread | .call (.destroyThread _) | .preempt | .hpet _ => isTrue trivial

structure Joins (s : Scheduler) : Prop where
  targets : ∀ a ∈ s.ring, ∀ id b, (s.pc a).joining (s.waiting a) = some (id, b) →
    b ∈ s.ring ∧ s.id b = id
  listed : ∀ a ∈ s.ring, ∀ id, (s.pc a).expects (s.waiting a) id = true →
    ⟨id, a⟩ ∈ s.waitingList ∧ ¬ s.Unlinking ⟨id, a⟩
  scanning : ∀ r pos remover id, s.pc r = .remove (.scanning pos) remover id →
    ∀ e ∈ s.waitingList.take pos, e.id ≠ id
  cleared : ∀ r pos remover id, s.pc r = .remove (.cleared pos) remover id →
    ∀ e ∈ s.waitingList.take pos, e.id ≠ id
  scanned : ∀ r remover id, s.pc r = .remove .scanned remover id → ∀ e ∈ s.waitingList, e.id ≠ id
  closed : ∀ r ∈ s.ring, ∀ remover id, s.pc r = .remove .unlocked remover id →
    ∀ a ∈ s.ring, ∀ b, (s.pc a).joining (s.waiting a) ≠ some (id, b)

variable {s s' : Scheduler} {t : ℕ} {q : Pc} {w l : Bool}

/-! ### Steps that move a thread -/

/-- What a move must respect: it starts no wait, and a loop has looked at what it has passed. -/
structure JoinMoves (s : Scheduler) (t : ℕ) (q : Pc) (w : Bool) : Prop where
  uncleared : ∀ pos remover id,
    s.pc t ≠ .remove (.cleared pos) remover id ∧ q ≠ .remove (.cleared pos) remover id
  joining : ∀ x, q.joining w = some x → (s.pc t).joining (s.waiting t) = some x
  expects : ∀ id, q.expects w id = true → (s.pc t).expects (s.waiting t) id = true
  scanning : ∀ pos remover id, q = .remove (.scanning pos) remover id →
    ∀ e ∈ s.waitingList.take pos, e.id ≠ id
  scanned : ∀ remover id, q = .remove .scanned remover id → ∀ e ∈ s.waitingList, e.id ≠ id
  closed : ∀ remover id, q = .remove .unlocked remover id →
    ∀ a ∈ s.ring, ∀ b, (s.pc a).joining (s.waiting a) ≠ some (id, b)

theorem Joins.move (hj : Joins s) (hjm : JoinMoves s t q w) (l : Bool) :
    Joins (s.move t q w l) := by
  have hunlinking := unlinking_move hjm.uncleared w l
  -- who waits afterwards has waited before
  have hjoining : ∀ a x, ((s.move t q w l).pc a).joining ((s.move t q w l).waiting a) = some x →
      (s.pc a).joining (s.waiting a) = some x := by
    intro a x hx
    simp only [Scheduler.move, Function.update_apply] at hx
    split_ifs at hx with heq
    · exact heq ▸ hjm.joining x hx
    · exact hx
  refine ⟨fun a ha id b hb => hj.targets a ha id b (hjoining a _ hb), fun a ha id hexp => ?_, ?_, ?_, ?_,
    fun r hr remover id hpc a ha b hb => ?_⟩
  · rw [hunlinking]
    refine hj.listed a ha id ?_
    simp only [Scheduler.move, Function.update_apply] at hexp
    split_ifs at hexp with heq
    · exact heq ▸ hjm.expects id hexp
    · exact hexp
  · have hscanning := hj.scanning
    have hscanning' := hjm.scanning
    simp only [Scheduler.move, Function.update_apply]
    grind
  · have hcleared := hj.cleared
    have huncleared := hjm.uncleared
    simp only [Scheduler.move, Function.update_apply]
    grind
  · have hscanned := hj.scanned
    have hscanned' := hjm.scanned
    simp only [Scheduler.move, Function.update_apply]
    grind
  · simp only [Scheduler.move, Function.update_apply] at hpc
    split_ifs at hpc with heq
    · exact hjm.closed remover id hpc a ha b (hjoining a _ hb)
    · exact hj.closed r hr remover id hpc a ha b (hjoining a _ hb)

theorem Joins.goto (hj : Joins s)
    (hjm : JoinMoves s s.currentThread q (s.waiting s.currentThread)) : Joins (s.goto q) :=
  goto_eq_move q s ▸ hj.move hjm _

theorem Joins.unlock (hj : Joins s)
    (hjm : JoinMoves s s.currentThread q (s.waiting s.currentThread)) : Joins (s.unlock q) := by
  have hmove := hj.move hjm false
  rw [Scheduler.move, Function.update_eq_self] at hmove
  exact hmove

/-- Only the waits of threads of the ring are spoken of. -/
theorem Joins.frame (hj : Joins s) (deadThreads freedStacks freedRecords : List ℕ)
    (sleepingList : List SleepEntry) (currentThread : ℕ) :
    Joins { s with deadThreads, freedStacks, freedRecords, sleepingList, currentThread } :=
  ⟨hj.targets, hj.listed, hj.scanning, hj.cleared, hj.scanned, hj.closed⟩

/-- Waking a thread starts no wait. -/
theorem Joins.setWaiting_false (hj : Joins s) : Joins (s.setWaiting t false) := by
  have hjoining : ∀ a x, (s.pc a).joining ((s.setWaiting t false).waiting a) = some x →
      (s.pc a).joining (s.waiting a) = some x := by
    intro a x hx
    simp only [setWaiting, Function.update_apply] at hx
    split_ifs at hx
    · exact Pc.joining_of_false hx
    · exact hx
  refine ⟨fun a ha id b hb => hj.targets a ha id b (hjoining a _ hb), fun a ha id hexp => ?_,
    hj.scanning, hj.cleared, hj.scanned,
    fun r hr remover id hpc a ha b hb => hj.closed r hr remover id hpc a ha b (hjoining a _ hb)⟩
  refine hj.listed a ha id ?_
  simp only [setWaiting, Function.update_apply] at hexp
  split_ifs at hexp
  · exact Pc.expects_of_false hexp
  · exact hexp

theorem Joins.switch (hj : Joins s) (hstep : s.switch t = some s') : Joins s' := by
  rw [switch_eq hstep]
  exact hj.frame ..

/-! ### The other steps -/

section Steps

variable {id : ℕ} {remover : Remover}

/-- The only thread in a loop is the current one. -/
theorem Inv.not_holds (h : Inv s) (hholds : (s.pc s.currentThread).holdsLock = true)
    (ht : t ≠ s.currentThread) : (s.pc t).holdsLock = false := by
  by_contra hne
  exact ht ((h.mutex _ hholds).2 t (by simpa using hne))

/-- The search of `waitForThread` succeeds. -/
theorem Joins.check (hj : Joins s) {b : ℕ} (hfind : s.threadWithId id = some b)
    (hC : Orderly s (.call (.waitForThread id))) : Joins (s.goto (.wait .found id b)) := by
  have hb : b ∈ s.ring := List.mem_of_find?_eq_some hfind
  have hid : s.id b = id := by simpa using List.find?_some hfind
  have hpending : ∀ r ∈ s.ring, ∀ remover, s.pc r ≠ .remove .unlocked remover id := by
    intro r hr' remover
    obtain ⟨hexit, hdestroy⟩ := (hC.resolve_left (by simp [hfind])) r hr'
    cases remover with
    | exitThread => exact hexit
    | destroyThread => exact hdestroy
  have hscanning := hj.scanning
  have hcleared := hj.cleared
  have hscanned := hj.scanned
  refine ⟨fun a ha i c hc => ?_, fun a ha i hexp => ?_, ?_, ?_, ?_, fun r hr' remover i hpc' a ha c hc => ?_⟩
  · simp only [Scheduler.goto, Function.update_apply] at hc
    split_ifs at hc with heq
    · obtain ⟨rfl, rfl⟩ : id = i ∧ b = c := by simpa [Pc.joining] using hc
      exact ⟨hb, hid⟩
    · exact hj.targets a ha i c hc
  · simp only [Scheduler.goto, Function.update_apply] at hexp
    split_ifs at hexp with heq
    · cases hexp
    · obtain ⟨hmem, hnot⟩ := hj.listed a ha i hexp
      refine ⟨hmem, ?_⟩
      rintro ⟨r, pos, remover, j, hr', hpos⟩
      refine hnot ⟨r, pos, remover, j, ?_, hpos⟩
      simp only [Scheduler.goto, Function.update_apply] at hr'
      split_ifs at hr'
      exact hr'
  · simp only [Scheduler.goto, Function.update_apply]
    grind
  · simp only [Scheduler.goto, Function.update_apply]
    grind
  · simp only [Scheduler.goto, Function.update_apply]
    grind
  · simp only [Scheduler.goto, Function.update_apply] at hpc' hc
    split_ifs at hpc' with heq
    split_ifs at hc with heq'
    · obtain ⟨rfl, rfl⟩ : id = i ∧ b = c := by simpa [Pc.joining] using hc
      exact hpending r hr' remover hpc'
    · exact hj.closed r hr' remover i hpc' a ha c hc

/-- A step on the waiting list, by the thread that holds the lock: no other thread is in a loop. -/
theorem Joins.of_holder (hj : Joins s) (h : Inv s) (hholds : (s.pc s.currentThread).holdsLock = true)
    (hring : s'.ring = s.ring) (hid : s'.id = s.id)
    (hself : s'.pc s.currentThread = q) (hother : ∀ r, r ≠ s.currentThread → s'.pc r = s.pc r)
    (hjoining : ∀ a x, (s'.pc a).joining (s'.waiting a) = some x →
      (s.pc a).joining (s.waiting a) = some x)
    (hlisted : ∀ a ∈ s.ring, ∀ i, (s'.pc a).expects (s'.waiting a) i = true →
      ⟨i, a⟩ ∈ s'.waitingList ∧ ∀ pos remover i', q = .remove (.cleared pos) remover i' →
        s'.waitingList[pos]? ≠ some ⟨i, a⟩)
    (hpassed : ∀ pos remover i, q = .remove (.scanning pos) remover i ∨
      q = .remove (.cleared pos) remover i → ∀ e ∈ s'.waitingList.take pos, e.id ≠ i)
    (hq : ∀ remover i, q ≠ .remove .scanned remover i ∧ q ≠ .remove .unlocked remover i) :
    Joins s' := by
  have hloop : ∀ r stage remover i, s'.pc r = .remove stage remover i →
      (Pc.remove stage remover i).holdsLock = true → q = .remove stage remover i := by
    intro r stage remover i hr hholds'
    by_cases heq : r = s.currentThread
    · rw [← hself, ← heq, hr]
    · have hfree := h.not_holds hholds heq
      rw [← hother r heq, hr, hholds'] at hfree
      cases hfree
  refine ⟨fun a ha i c hc => ?_, fun a ha i hexp => ?_, fun r pos remover i hr => ?_,
    fun r pos remover i hr => ?_, fun r remover i hr => ?_, fun r hr' remover i hr a ha c hc => ?_⟩
  · rw [hring, hid]
    exact hj.targets a (hring ▸ ha) i c (hjoining a _ hc)
  · obtain ⟨hmem, hnot⟩ := hlisted a (hring ▸ ha) i hexp
    refine ⟨hmem, ?_⟩
    rintro ⟨r, pos, remover, i', hr, hpos⟩
    exact hnot pos remover i' (hloop r _ _ _ hr rfl) hpos
  · exact hpassed pos remover i (Or.inl (hloop r _ _ _ hr rfl))
  · exact hpassed pos remover i (Or.inr (hloop r _ _ _ hr rfl))
  · exact absurd (hloop r _ _ _ hr rfl) (hq remover i).1
  · have heq : r ≠ s.currentThread := by
      rintro rfl
      exact (hq remover i).2 (hself.symm.trans hr)
    rw [hother r heq] at hr
    exact hj.closed r (hring ▸ hr') remover i hr a (hring ▸ ha) c (hjoining a _ hc)

/-- The entry of a thread is linked. -/
theorem Joins.link (hj : Joins s) (h : Inv s) {b : ℕ}
    (hpc : s.pc s.currentThread = .wait .locked id b) :
    Joins { s.goto (.wait .linked id b) with
      waitingList := s.waitingList ++ [⟨id, s.currentThread⟩] } := by
  refine hj.of_holder h (q := .wait .linked id b) (by rw [hpc]; rfl) rfl rfl
    (Function.update_self ..) (fun r hr => Function.update_of_ne hr ..) (fun a x hx => ?_)
    (fun a ha i hexp => ⟨?_, fun pos remover i' hq => by cases hq⟩)
    (fun pos remover i hq => by rcases hq with hq | hq <;> cases hq) (fun remover i => by simp)
  · simp only [Scheduler.goto, Function.update_apply] at hx
    split_ifs at hx with heq
    · rw [heq, hpc]
      exact hx
    · exact hx
  · simp only [Scheduler.goto, Function.update_apply] at hexp
    split_ifs at hexp with heq
    · obtain rfl : id = i := by simpa [Pc.expects] using hexp
      exact heq ▸ List.mem_append_right _ (List.mem_singleton_self _)
    · exact List.mem_append_left _ (hj.listed a ha i hexp).1

/-- The loop stores the flag of an entry's thread, which has set it before. -/
theorem Joins.clear (hj : Joins s) (h : Inv s) {pos : ℕ} {e : WaitingEntry}
    (hpc : s.pc s.currentThread = .remove (.scanning pos) remover id)
    (he : s.waitingList[pos]? = some e)
    (hflagged : e.thread ∈ s.ring → (s.pc e.thread).flagged = true) :
    Joins ((s.goto (.remove (.cleared pos) remover id)).setWaiting e.thread false) := by
  refine hj.of_holder h (q := .remove (.cleared pos) remover id) (by rw [hpc]; rfl) rfl rfl
    (Function.update_self ..) (fun r hr => Function.update_of_ne hr ..) (fun a x hx => ?_)
    (fun a ha i hexp => ?_) (fun pos' remover' i hq => ?_) (fun remover' i => by simp)
  · simp only [Scheduler.goto, setWaiting, Function.update_apply] at hx
    split_ifs at hx
    · cases hx
    · exact Pc.joining_of_false hx
    · cases hx
    · exact hx
  · simp only [Scheduler.goto, setWaiting, Function.update_apply] at hexp
    by_cases hcur : a = s.currentThread
    · rw [if_pos hcur] at hexp
      cases hexp
    · rw [if_neg hcur] at hexp
      by_cases hthread : a = e.thread
      · -- the thread of the entry does not expect it any more
        rw [if_pos hthread] at hexp
        have hflag := hflagged (hthread ▸ ha)
        rw [← hthread] at hflag
        cases hc : s.pc a with
        | wait stage j b => cases stage <;> simp_all [Pc.flagged, Pc.expects]
        | _ => simp_all [Pc.flagged]
      · rw [if_neg hthread] at hexp
        refine ⟨(hj.listed a ha i hexp).1, fun pos' remover' i' hq hpos => hthread ?_⟩
        cases hq
        rw [← Option.some.inj (hpos.symm.trans he)]
  · rcases hq with hq | hq
    · cases hq
    · cases hq
      exact hj.scanning _ _ _ _ hpc

/-- The loop unlinks the entry. -/
theorem Joins.unlink (hj : Joins s) (h : Inv s) {pos : ℕ}
    (hpc : s.pc s.currentThread = .remove (.cleared pos) remover id) :
    Joins { s.goto (.remove (.scanning pos) remover id) with
      waitingList := s.waitingList.eraseIdx pos } := by
  refine hj.of_holder h (q := .remove (.scanning pos) remover id) (by rw [hpc]; rfl) rfl rfl
    (Function.update_self ..) (fun r hr => Function.update_of_ne hr ..) (fun a x hx => ?_)
    (fun a ha i hexp => ⟨?_, fun pos' remover' i' hq => by cases hq⟩) (fun pos' remover' i hq => ?_)
    (fun remover' i => by simp)
  · simp only [Scheduler.goto, Function.update_apply] at hx
    split_ifs at hx
    · cases hx
    · exact hx
  · simp only [Scheduler.goto, Function.update_apply] at hexp
    split_ifs at hexp
    · cases hexp
    · -- an entry that is expected is not the one being unlinked
      obtain ⟨hmem, hnot⟩ := hj.listed a ha i hexp
      obtain ⟨k, hk⟩ := List.mem_iff_getElem?.1 hmem
      refine List.mem_eraseIdx_iff_getElem?.2 ⟨k, ?_, hk⟩
      rintro rfl
      exact hnot ⟨s.currentThread, k, remover, id, hpc, hk⟩
  · rcases hq with hq | hq
    · cases hq
      rw [List.take_eraseIdx_eq_take_of_le _ _ _ le_rfl]
      exact hj.cleared _ _ _ _ hpc
    · cases hq

/-- A thread leaves the ring that nobody waits for or is about to. -/
theorem Joins.erase (hj : Joins s)
    (hclosed : ∀ a ∈ s.ring, ∀ b, (s.pc a).joining (s.waiting a) ≠ some (s.id t, b)) :
    Joins { s with ring := s.ring.erase t } := by
  refine ⟨fun a ha i b hb => ?_, fun a ha => hj.listed a (List.mem_of_mem_erase ha), hj.scanning,
    hj.cleared, hj.scanned, fun r hr remover i hpc a ha =>
      hj.closed r (List.mem_of_mem_erase hr) remover i hpc a (List.mem_of_mem_erase ha)⟩
  obtain ⟨hmem, hid⟩ := hj.targets a (List.mem_of_mem_erase ha) i b hb
  refine ⟨(List.mem_erase_of_ne ?_).2 hmem, hid⟩
  rintro rfl
  exact hclosed a (List.mem_of_mem_erase ha) b (hid ▸ hb)

theorem Joins.create (hj : Joins s) (h : Inv s) (hr : Runs s) : Joins { s with
    ring := s.ring ++ [s.created]
    created := s.created + 1
    id := Function.update s.id s.created (freeId (s.ring.map s.id) 0 s.ring.length)
    waiting := Function.update s.waiting s.created false
    pc := Function.update s.pc s.created .running } := by
  have hrunning : s.pc s.created = .running := h.unborn _ le_rfl
  have hpc : Function.update s.pc s.created .running = s.pc := by
    rw [← hrunning, Function.update_eq_self]
  have hold : ∀ a ∈ s.ring, a ≠ s.created := fun a ha => (hr.created a ha).ne
  -- the new thread does not wait
  have hjoining : ∀ a ∈ s.ring ++ [s.created], ∀ x,
      (s.pc a).joining (Function.update s.waiting s.created false a) = some x →
        a ∈ s.ring ∧ (s.pc a).joining (s.waiting a) = some x := by
    intro a ha x hx
    rcases List.mem_append.1 ha with ha | ha
    · rw [Function.update_of_ne (hold a ha)] at hx
      exact ⟨ha, hx⟩
    · rw [List.mem_singleton.1 ha, hrunning] at hx
      cases hx
  refine ⟨fun a ha i b hb => ?_, fun a ha i hexp => ?_, ?_, ?_, ?_, fun r hr' remover i hpc' a ha b hb => ?_⟩
  · simp only [hpc] at hb
    obtain ⟨ha', hb'⟩ := hjoining a ha _ hb
    obtain ⟨hmem, hid⟩ := hj.targets a ha' i b hb'
    refine ⟨List.mem_append_left _ hmem, ?_⟩
    simp only
    rw [Function.update_of_ne (hold b hmem)]
    exact hid
  · simp only [hpc] at hexp
    rcases List.mem_append.1 ha with ha | ha
    · rw [Function.update_of_ne (hold a ha)] at hexp
      obtain ⟨hmem, hnot⟩ := hj.listed a ha i hexp
      refine ⟨hmem, ?_⟩
      simp only [Unlinking, hpc]
      exact hnot
    · rw [List.mem_singleton.1 ha, hrunning] at hexp
      cases hexp
  · simp only [hpc]
    exact hj.scanning
  · simp only [hpc]
    exact hj.cleared
  · simp only [hpc]
    exact hj.scanned
  · simp only [hpc] at hpc' hb
    obtain ⟨ha', hb'⟩ := hjoining a ha _ hb
    rcases List.mem_append.1 hr' with hr' | hr'
    · exact hj.closed r hr' remover i hpc' a ha' b hb'
    · rw [List.mem_singleton.1 hr', hrunning] at hpc'
      cases hpc'

end Steps

/-! ### All steps -/

theorem Joins.lock (hj : Joins s)
    (hjm : JoinMoves s s.currentThread q (s.waiting s.currentThread)) (hstep : s.lock q = some s') :
    Joins s' := by
  unfold Scheduler.lock at hstep
  split_ifs at hstep
  · exact hj.switch hstep
  · obtain rfl := Option.some.inj hstep
    have hmove := hj.move hjm true
    rw [Scheduler.move, Function.update_eq_self] at hmove
    exact hmove

theorem Joins.wake (hj : Joins s) {p : SleepEntry → Bool} (hwake : s.wake p = some s') : Joins s' := by
  simp only [Scheduler.wake, bind, Option.bind_eq_some_iff, pure, Option.some.injEq] at hwake
  obtain ⟨e, -, rfl⟩ := hwake
  exact hj.setWaiting_false.frame ..

end Scheduler

end Naul
