import Naul.Scheduler.Steps

/-!
# The waiting lock and the entries

What holds in every state of a run, whatever the threads call. One thread at a time is between `lock`
and `unlock`. An entry of the waiting list is either expected by its thread, which is in
`waitForThread` past `linkList` and has not been woken, or it is being unlinked by the thread that
holds the lock; in the second case its owner runs, but it cannot get past the lock. An entry of the
sleeping list belongs to a thread that sleeps.

Most steps only `move` a thread: it goes to another place, and may change its own flag and the lock.
`Inv.move` is about these, and the lemmas after it about the steps that change a list or the flag of
another thread. `inv_step` puts them together.
-/

namespace Naul

/-- Between `lock` and `unlock`. -/
def Pc.holdsLock : Pc → Bool
  | .wait .locked _ _ | .wait .linked _ _ => true
  | .remove (.scanning _) _ _ | .remove (.cleared _) _ _ | .remove .scanned _ _ => true
  | _ => false

/-- A place where a thread can be whose entry is being unlinked: from where it was woken to the next
`lock`. -/
def Pc.outside : Pc → Bool
  | .running | .sleep _ | .remove .called _ _ => true
  | .wait .found _ _ | .wait .unlocked _ _ | .wait .flagged _ _ | .wait .yielded _ _ => true
  | _ => false

/-- The thread has linked an entry for `id` and not been woken, where its flag is `waiting`. -/
def Pc.expects (waiting : Bool) (id : ℕ) : Pc → Bool
  | .wait .linked i _ | .wait .unlocked i _ => i = id
  | .wait .flagged i _ | .wait .yielded i _ => i = id && waiting
  | _ => false

/-- The thread has been switched away from while its flag was set. -/
def Pc.yielded : Pc → Bool
  | .wait .yielded _ _ | .sleep true => true
  | _ => false

namespace Scheduler

/-- The loop of some thread has stored the flag for the entry, and not unlinked it yet. -/
def Unlinking (s : Scheduler) (e : WaitingEntry) : Prop :=
  ∃ r pos remover id, s.pc r = .remove (.cleared pos) remover id ∧ s.waitingList[pos]? = some e

/-- The current thread is in the ring, and its flag is not set where it returns from a yield. -/
structure Runs (s : Scheduler) : Prop where
  mem : s.currentThread ∈ s.ring
  created : ∀ t ∈ s.ring, t < s.created
  resumed : (s.pc s.currentThread).yielded = true → s.waiting s.currentThread = false

structure Inv (s : Scheduler) : Prop where
  unborn : ∀ t, s.created ≤ t → s.pc t = .running
  mutex : ∀ t, (s.pc t).holdsLock = true →
    s.waitingLock = true ∧ ∀ u, (s.pc u).holdsLock = true → u = t
  exits : ∀ t stage id, s.pc t = .remove stage .exitThread id → id = s.id t
  cleaner : ∃ stage, s.pc s.cleanerThread = .cleaner stage
  waits : ∀ e ∈ s.waitingList, e.thread < s.created ∧
    ((s.pc e.thread).expects (s.waiting e.thread) e.id = true ∨
      s.Unlinking e ∧ (s.pc e.thread).outside = true)
  waitsNodup : (s.waitingList.map WaitingEntry.thread).Nodup
  sleeps : ∀ e ∈ s.sleepingList, s.waiting e.thread = true ∧ ∃ b, s.pc e.thread = .sleep b
  sleepsNodup : (s.sleepingList.map SleepEntry.thread).Nodup

variable {s s' : Scheduler} {t : ℕ} {q : Pc} {w l : Bool}

/-- Whoever unlinks an entry holds the lock. -/
theorem Inv.locked_of_unlinking (h : Inv s) {e : WaitingEntry} (he : s.Unlinking e) :
    s.waitingLock = true := by
  obtain ⟨r, pos, remover, id, hr, -⟩ := he
  exact (h.mutex r (by rw [hr]; rfl)).1

/-- No entry is being unlinked while a thread at another place holds the lock. -/
theorem Inv.not_unlinking (h : Inv s) {e : WaitingEntry} (ht : (s.pc t).holdsLock = true)
    (hpc : ∀ pos remover id, s.pc t ≠ .remove (.cleared pos) remover id) : ¬ s.Unlinking e := by
  rintro ⟨r, pos, remover, id, hr, -⟩
  obtain rfl := (h.mutex t ht).2 r (by rw [hr]; rfl)
  exact hpc pos remover id hr

/-! ### Steps that move a thread -/

/-- Thread `t` goes to `q`, its flag is `w` afterwards, and the lock `l`. -/
def move (t : ℕ) (q : Pc) (w l : Bool) (s : Scheduler) : Scheduler :=
  { s with
    pc := Function.update s.pc t q
    waiting := Function.update s.waiting t w
    waitingLock := l }

/-- What the move must respect. The lock is taken when it is free and freed by its holder; an entry
that was expected still is; where the lock is held by another thread, the move does not get past it. -/
structure Moves (s : Scheduler) (t : ℕ) (q : Pc) (w l : Bool) : Prop where
  created : t < s.created
  takes : q.holdsLock = true → l = true ∧ ((s.pc t).holdsLock = true ∨ s.waitingLock = false)
  frees : s.waitingLock = true → l = true ∨ (s.pc t).holdsLock = true
  expects : ∀ id, (s.pc t).expects (s.waiting t) id = true → q.expects w id = true
  outside : (s.pc t).outside = true → s.waitingLock = true → q.outside = true
  uncleared : ∀ pos remover id,
    s.pc t ≠ .remove (.cleared pos) remover id ∧ q ≠ .remove (.cleared pos) remover id
  exits : ∀ stage id, q = .remove stage .exitThread id → id = s.id t
  cleaner : ∀ stage, s.pc t = .cleaner stage → ∃ stage', q = .cleaner stage'
  sleeps : ∀ b, s.pc t = .sleep b → s.waiting t = true → w = true ∧ ∃ b', q = .sleep b'

theorem unlinking_move (hclear : ∀ pos remover id,
      s.pc t ≠ .remove (.cleared pos) remover id ∧ q ≠ .remove (.cleared pos) remover id)
    (w l : Bool) (e : WaitingEntry) : (s.move t q w l).Unlinking e ↔ s.Unlinking e := by
  simp only [Unlinking, move, Function.update_apply]
  grind

theorem Inv.move (h : Inv s) (hm : Moves s t q w l) : Inv (s.move t q w l) := by
  have hunlinking := unlinking_move hm.uncleared w l
  have ht := hm.created
  refine ⟨?_, ?_, ?_, ?_, ?_, h.waitsNodup, ?_, h.sleepsNodup⟩
  · intro u hu
    have hut : u ≠ t := by
      rintro rfl
      exact absurd hu (not_le.2 ht)
    exact (Function.update_of_ne hut ..).trans (h.unborn u hu)
  · -- the only thread that can hold the lock before is `t`, and so it is afterwards
    have hmutex := h.mutex
    have htakes := hm.takes
    have hfrees := hm.frees
    simp only [Scheduler.move, Function.update_apply]
    grind
  · have hexits := h.exits
    have hexits' := hm.exits
    simp only [Scheduler.move, Function.update_apply]
    grind
  · have hcleaner := h.cleaner
    have hcleaner' := hm.cleaner
    simp only [Scheduler.move, Function.update_apply]
    grind
  · intro e he
    obtain ⟨hcreated, hexpects | ⟨hun, houtside⟩⟩ := h.waits e he
    · refine ⟨hcreated, Or.inl ?_⟩
      have hexpects' := hm.expects
      simp only [Scheduler.move, Function.update_apply]
      split_ifs with heq
      · rw [heq] at hexpects
        exact hexpects' _ hexpects
      · exact hexpects
    · refine ⟨hcreated, Or.inr ⟨(hunlinking e).2 hun, ?_⟩⟩
      simp only [Scheduler.move, Function.update_apply]
      split_ifs with heq
      · rw [heq] at houtside
        exact hm.outside houtside (h.locked_of_unlinking hun)
      · exact houtside
  · intro e he
    obtain ⟨hwaiting, b, hpc⟩ := h.sleeps e he
    simp only [Scheduler.move, Function.update_apply]
    split_ifs with heq
    · rw [heq] at hwaiting hpc
      exact hm.sleeps b hpc hwaiting
    · exact ⟨hwaiting, b, hpc⟩

/-- The invariant says nothing of the ring, the current thread and the memory. -/
theorem Inv.frame (h : Inv s) (ring deadThreads freedStacks freedRecords : List ℕ)
    (currentThread : ℕ) :
    Inv { s with ring, currentThread, deadThreads, freedStacks, freedRecords } :=
  ⟨h.unborn, h.mutex, h.exits, h.cleaner, h.waits, h.waitsNodup, h.sleeps, h.sleepsNodup⟩

theorem goto_eq_move (q : Pc) (s : Scheduler) :
    s.goto q = s.move s.currentThread q (s.waiting s.currentThread) s.waitingLock := by
  unfold goto Scheduler.move
  rw [Function.update_eq_self]

theorem Inv.goto (h : Inv s)
    (hm : Moves s s.currentThread q (s.waiting s.currentThread) s.waitingLock) : Inv (s.goto q) :=
  goto_eq_move q s ▸ h.move hm

/-! ### Steps on the waiting list -/

/-- A thread that holds the lock and is not in a loop has no entry. -/
theorem Inv.no_entry (h : Inv s) (ht : (s.pc t).holdsLock = true)
    (hpc : ∀ w id, (s.pc t).expects w id = false) :
    ∀ e ∈ s.waitingList, e.thread ≠ t := by
  rintro e he rfl
  obtain ⟨-, hexpects | ⟨-, houtside⟩⟩ := h.waits e he
  · rw [hpc] at hexpects
    cases hexpects
  · cases hc : s.pc e.thread with
    | wait stage id target => cases stage <;> simp_all [Pc.holdsLock, Pc.outside]
    | remove stage remover id => cases stage <;> simp_all [Pc.holdsLock, Pc.outside]
    | _ => simp_all [Pc.holdsLock]

/-- An entry is linked that its thread expects. -/
theorem Inv.link (h : Inv s) {e : WaitingEntry} (hcreated : e.thread < s.created)
    (hexpects : (s.pc e.thread).expects (s.waiting e.thread) e.id = true)
    (hnew : ∀ e' ∈ s.waitingList, e'.thread ≠ e.thread) :
    Inv { s with waitingList := s.waitingList ++ [e] } := by
  refine ⟨h.unborn, h.mutex, h.exits, h.cleaner, fun e' he' => ?_, ?_, h.sleeps, h.sleepsNodup⟩
  · rcases List.mem_append.1 he' with he' | he'
    · obtain ⟨hlt, hwaits⟩ := h.waits e' he'
      refine ⟨hlt, hwaits.imp_right fun ⟨⟨r, pos, remover, id, hr, hpos⟩, houtside⟩ => ?_⟩
      have hlen := (List.getElem?_eq_some_iff.1 hpos).1
      exact ⟨⟨r, pos, remover, id, hr, by rwa [List.getElem?_append_left hlen]⟩, houtside⟩
    · rw [List.mem_singleton.1 he']
      exact ⟨hcreated, Or.inl hexpects⟩
  · rw [List.map_append, List.nodup_append]
    refine ⟨h.waitsNodup, List.nodup_singleton _, fun a ha b hb => ?_⟩
    obtain ⟨e', he', rfl⟩ := List.mem_map.1 ha
    rw [List.map_singleton, List.mem_singleton] at hb
    exact hb ▸ hnew e' he'

/-- Two entries of one thread are one. -/
theorem Inv.entry_eq (h : Inv s) {e e' : WaitingEntry} (he : e ∈ s.waitingList)
    (he' : e' ∈ s.waitingList) (hthread : e.thread = e'.thread) : e = e' :=
  List.inj_on_of_nodup_map h.waitsNodup he he' hthread

/-- The loop stores the flag of an entry's thread. -/
theorem Inv.clear (h : Inv s) {pos id : ℕ} {remover : Remover} {e : WaitingEntry}
    (hpc : s.pc s.currentThread = .remove (.scanning pos) remover id)
    (he : s.waitingList[pos]? = some e) :
    Inv ((s.goto (.remove (.cleared pos) remover id)).setWaiting e.thread false) := by
  have hmem : e ∈ s.waitingList := List.mem_of_getElem? he
  have hholds : (s.pc s.currentThread).holdsLock = true := by rw [hpc]; rfl
  have hnot : ∀ e', ¬ s.Unlinking e' := fun e' => h.not_unlinking hholds (by simp [hpc])
  have hexpects : ∀ e' ∈ s.waitingList,
      (s.pc e'.thread).expects (s.waiting e'.thread) e'.id = true :=
    fun e' he' => (h.waits e' he').2.resolve_right fun hun => hnot e' hun.1
  -- the thread of an entry is in `waitForThread`, and so it is not the current thread
  have hne : ∀ e' ∈ s.waitingList, e'.thread ≠ s.currentThread := by
    intro e' he' heq
    have := hexpects e' he'
    rw [heq, hpc] at this
    cases this
  refine ⟨?_, ?_, ?_, ?_, fun e' he' => ⟨(h.waits e' he').1, ?_⟩, h.waitsNodup, ?_, h.sleepsNodup⟩
  · have hunborn := h.unborn
    simp only [Scheduler.goto, setWaiting, Function.update_apply]
    grind
  · have hmutex := h.mutex
    simp only [Scheduler.goto, setWaiting, Function.update_apply]
    grind [Pc.holdsLock]
  · have hexits := h.exits
    simp only [Scheduler.goto, setWaiting, Function.update_apply]
    grind
  · have hcleaner := h.cleaner
    simp only [Scheduler.goto, setWaiting, Function.update_apply]
    grind
  · have hpc' : (s.goto (.remove (.cleared pos) remover id)).pc e'.thread = s.pc e'.thread :=
      Function.update_of_ne (hne e' he') ..
    have hexp := hexpects e' he'
    change ((s.goto (.remove (.cleared pos) remover id)).pc e'.thread).expects
      (Function.update s.waiting e.thread false e'.thread) e'.id = true ∨ _ ∧
      ((s.goto (.remove (.cleared pos) remover id)).pc e'.thread).outside = true
    rw [hpc']
    by_cases hthread : e'.thread = e.thread
    · -- the entry itself: its thread is past the lock, which the current thread holds
      obtain rfl := h.entry_eq he' hmem hthread
      refine Or.inr ⟨⟨s.currentThread, pos, remover, id, Function.update_self .., he⟩, ?_⟩
      have hfree : (s.pc e'.thread).holdsLock = false := by
        by_contra hholds'
        exact hne e' he' ((h.mutex _ hholds).2 _ (by simpa using hholds'))
      cases hc : s.pc e'.thread with
      | wait stage id target => cases stage <;> simp_all [Pc.holdsLock, Pc.outside, Pc.expects]
      | _ => simp_all [Pc.expects]
    · rw [Function.update_of_ne hthread]
      exact Or.inl hexp
  · intro e' he'
    obtain ⟨hwaiting, b, hb⟩ := h.sleeps e' he'
    have hthread : e'.thread ≠ e.thread := by
      intro heq
      have := hexpects e hmem
      rw [← heq, hb] at this
      cases this
    have hcur : e'.thread ≠ s.currentThread := by
      intro heq
      rw [heq, hpc] at hb
      cases hb
    exact ⟨(Function.update_of_ne hthread ..).trans hwaiting, b,
      (Function.update_of_ne hcur ..).trans hb⟩

/-- The loop unlinks the entry. -/
theorem Inv.unlink (h : Inv s) {pos id : ℕ} {remover : Remover}
    (hpc : s.pc s.currentThread = .remove (.cleared pos) remover id) :
    Inv { s.goto (.remove (.scanning pos) remover id) with
      waitingList := s.waitingList.eraseIdx pos } := by
  have hholds : (s.pc s.currentThread).holdsLock = true := by rw [hpc]; rfl
  -- the entry being unlinked is the one that goes
  have hkept : ∀ e ∈ s.waitingList.eraseIdx pos, e ∈ s.waitingList ∧ ¬ s.Unlinking e := by
    intro e he
    obtain ⟨i, hi, hget⟩ := List.mem_eraseIdx_iff_getElem?.1 he
    refine ⟨List.mem_of_getElem? hget, ?_⟩
    rintro ⟨r, pos', remover', id', hr, hpos⟩
    obtain rfl := (h.mutex _ hholds).2 r (by rw [hr]; rfl)
    rw [hpc] at hr
    cases hr
    have hlen := (List.getElem?_eq_some_iff.1 hget).1
    have hnodup := List.Nodup.of_map _ h.waitsNodup
    exact hi ((List.getElem?_inj hlen hnodup).1 (hget.trans hpos.symm))
  have hexpects : ∀ e ∈ s.waitingList.eraseIdx pos, e.thread ≠ s.currentThread ∧
      (s.pc e.thread).expects (s.waiting e.thread) e.id = true := by
    intro e he
    obtain ⟨hmem, hnot⟩ := hkept e he
    have hexp := (h.waits e hmem).2.resolve_right fun hun => hnot hun.1
    refine ⟨?_, hexp⟩
    intro heq
    rw [heq, hpc] at hexp
    cases hexp
  refine ⟨?_, ?_, ?_, ?_, fun e he => ⟨(h.waits e (hkept e he).1).1, Or.inl ?_⟩, ?_, ?_, h.sleepsNodup⟩
  · have hunborn := h.unborn
    simp only [Scheduler.goto, Function.update_apply]
    grind
  · have hmutex := h.mutex
    simp only [Scheduler.goto, Function.update_apply]
    grind [Pc.holdsLock]
  · have hexits := h.exits
    simp only [Scheduler.goto, Function.update_apply]
    grind
  · have hcleaner := h.cleaner
    simp only [Scheduler.goto, Function.update_apply]
    grind
  · obtain ⟨hne, hexp⟩ := hexpects e he
    simp only [Scheduler.goto]
    rw [Function.update_of_ne hne]
    exact hexp
  · exact h.waitsNodup.sublist ((List.eraseIdx_sublist _ _).map _)
  · intro e he
    obtain ⟨hwaiting, b, hb⟩ := h.sleeps e he
    have hcur : e.thread ≠ s.currentThread := by
      intro heq
      rw [heq, hpc] at hb
      cases hb
    exact ⟨hwaiting, b, (Function.update_of_ne hcur ..).trans hb⟩

/-! ### Steps on the sleeping list -/

/-- A thread goes to sleep. -/
theorem Inv.sleep (h : Inv s) (hcreated : s.currentThread < s.created) (time : UInt64)
    (hpc : s.pc s.currentThread = .running) :
    Inv { (s.goto (.sleep false)).setWaiting s.currentThread true with
      sleepingList := s.sleepingList ++ [⟨time, s.currentThread⟩] } := by
  have hmoves : Moves s s.currentThread (.sleep false) true s.waitingLock := by
    constructor <;> simp_all [Pc.holdsLock, Pc.expects, Pc.outside]
  have hmove := h.move hmoves
  refine ⟨hmove.unborn, hmove.mutex, hmove.exits, hmove.cleaner, hmove.waits, hmove.waitsNodup,
    fun e he => ?_, ?_⟩
  · rcases List.mem_append.1 he with he | he
    · exact hmove.sleeps e he
    · rw [List.mem_singleton.1 he]
      exact ⟨Function.update_self .., false, Function.update_self ..⟩
  · rw [List.map_append, List.nodup_append]
    refine ⟨h.sleepsNodup, List.nodup_singleton _, fun a ha b hb => ?_⟩
    obtain ⟨e, he, rfl⟩ := List.mem_map.1 ha
    rw [List.map_singleton, List.mem_singleton] at hb
    rintro heq
    obtain ⟨-, b', hb'⟩ := h.sleeps e he
    rw [heq, hb, hpc] at hb'
    cases hb'

/-- The flag of a thread is cleared that expects no entry and does not sleep. -/
theorem Inv.setWaiting_false (h : Inv s)
    (hwait : ∀ e ∈ s.waitingList, e.thread = t → (s.pc t).expects (s.waiting t) e.id = false)
    (hsleep : ∀ e ∈ s.sleepingList, e.thread ≠ t) : Inv (s.setWaiting t false) := by
  refine ⟨h.unborn, h.mutex, h.exits, h.cleaner, fun e he => ⟨(h.waits e he).1, ?_⟩, h.waitsNodup,
    fun e he => ?_, h.sleepsNodup⟩
  · by_cases heq : e.thread = t
    · refine Or.inr ((h.waits e he).2.resolve_left ?_)
      rw [heq, hwait e he heq]
      exact Bool.false_ne_true
    · refine (h.waits e he).2.imp_left fun hexp => ?_
      simp only [setWaiting]
      rwa [Function.update_of_ne heq]
  · exact ⟨(Function.update_of_ne (hsleep e he) ..).trans (h.sleeps e he).1, (h.sleeps e he).2⟩

/-- A sleeping thread is woken. -/
theorem Inv.wake (h : Inv s) {p : SleepEntry → Bool} (hwake : s.wake p = some s') : Inv s' := by
  simp only [Scheduler.wake, bind, Option.bind_eq_some_iff, pure, Option.some.injEq] at hwake
  obtain ⟨e, hfind, rfl⟩ := hwake
  have hmem := List.mem_of_find?_eq_some hfind
  obtain ⟨-, b, hb⟩ := h.sleeps e hmem
  -- no other entry of the sleeping list is the thread's
  have herase : Inv { s with sleepingList := s.sleepingList.eraseP p } :=
    ⟨h.unborn, h.mutex, h.exits, h.cleaner, h.waits, h.waitsNodup,
      fun e' he' => h.sleeps e' (List.mem_of_mem_eraseP he'),
      h.sleepsNodup.sublist (List.eraseP_sublist.map _)⟩
  refine herase.setWaiting_false (fun e' _ _ => ?_) fun e' he' heq => ?_
  · change (s.pc e.thread).expects _ _ = false
    rw [hb]
    rfl
  · obtain ⟨xs, ys, hlist, hxs⟩ : ∃ xs ys, s.sleepingList = xs ++ e :: ys ∧ ∀ x ∈ xs, ¬ p x = true := by
      obtain ⟨hp, xs, ys, hlist, hxs⟩ := List.find?_eq_some_iff_append.1 hfind
      exact ⟨xs, ys, hlist, fun x hx => by simpa using hxs x hx⟩
    have hp : p e = true := List.find?_some hfind
    have hnodup := h.sleepsNodup
    change e' ∈ s.sleepingList.eraseP p at he'
    rw [hlist, List.eraseP_append_right _ hxs, List.eraseP_cons_of_pos hp] at he'
    rw [hlist, List.map_append, List.map_cons, List.nodup_middle, List.nodup_cons, ← List.map_append]
      at hnodup
    exact hnodup.1 (heq ▸ List.mem_map_of_mem he')

/-! ### All steps -/

/-- A thread is created. -/
theorem Inv.create (h : Inv s) : Inv { s with
    ring := s.ring ++ [s.created]
    created := s.created + 1
    id := Function.update s.id s.created (freeId (s.ring.map s.id) 0 s.ring.length)
    waiting := Function.update s.waiting s.created false
    pc := Function.update s.pc s.created .running } := by
  have hne : ∀ e : WaitingEntry, e ∈ s.waitingList → e.thread ≠ s.created := fun e he heq =>
    absurd (h.waits e he).1 (by rw [heq]; exact lt_irrefl _)
  have hrunning : s.pc s.created = .running := h.unborn _ le_rfl
  have hpc : Function.update s.pc s.created .running = s.pc := by
    rw [← hrunning, Function.update_eq_self]
  refine ⟨fun t ht => ?_, ?_, ?_, ?_, fun e he => ?_, h.waitsNodup, fun e he => ?_, h.sleepsNodup⟩
  · simp only [hpc]
    exact h.unborn t (Nat.le_of_succ_le ht)
  · simp only [hpc]
    exact h.mutex
  · intro t stage id ht
    simp only [hpc] at ht
    have hcreated : t ≠ s.created := by
      rintro rfl
      rw [hrunning] at ht
      cases ht
    simp only
    rw [Function.update_of_ne hcreated]
    exact h.exits t stage id ht
  · simp only [hpc]
    exact h.cleaner
  · obtain ⟨hlt, hwaits⟩ := h.waits e he
    refine ⟨Nat.lt_succ_of_lt hlt, ?_⟩
    simp only [Unlinking, hpc]
    rw [Function.update_of_ne (hne e he)]
    exact hwaits
  · obtain ⟨hwaiting, b, hb⟩ := h.sleeps e he
    have hcreated : e.thread ≠ s.created := by
      intro heq
      rw [heq, hrunning] at hb
      cases hb
    simp only [hpc]
    rw [Function.update_of_ne hcreated]
    exact ⟨hwaiting, b, hb⟩

/-- A switch to another thread. -/
theorem Inv.switch (h : Inv s) (hstep : s.switch t = some s') : Inv s' := by
  simp only [Scheduler.switch, bind, Option.bind_eq_some_iff, pure, Option.some.injEq] at hstep
  obtain ⟨next, -, rfl⟩ := hstep
  exact h.frame ..

/-- `lock`, where `q` is the first place with the lock. -/
theorem Inv.lock (h : Inv s) (hcreated : s.currentThread < s.created)
    (hpc : ∀ id, (s.pc s.currentThread).expects (s.waiting s.currentThread) id = false)
    (hsleep : ∀ b, s.pc s.currentThread ≠ .sleep b) (hclean : ∀ c, s.pc s.currentThread ≠ .cleaner c)
    (hholds : (s.pc s.currentThread).holdsLock = false)
    (hq : ∀ pos remover id, q ≠ .remove (.cleared pos) remover id)
    (hexits : ∀ stage id, q = .remove stage .exitThread id → id = s.id s.currentThread)
    (hstep : s.lock q = some s') : Inv s' := by
  unfold Scheduler.lock at hstep
  split_ifs at hstep with hlocked
  · exact h.switch hstep
  · obtain rfl := Option.some.inj hstep
    have hmoves : Moves s s.currentThread q (s.waiting s.currentThread) true := by
      refine ⟨hcreated, fun _ => ⟨rfl, Or.inr (by simpa using hlocked)⟩, fun _ => Or.inl rfl, ?_, ?_,
        fun pos remover id => ⟨?_, hq pos remover id⟩, hexits, ?_, ?_⟩
      · intro id hid
        rw [hpc] at hid
        cases hid
      · exact fun _ hl => absurd hl hlocked
      · intro heq
        rw [heq] at hholds
        cases hholds
      · exact fun c hc => absurd hc (hclean c)
      · exact fun b hb => absurd hb (hsleep b)
    have hmove := h.move hmoves
    rw [Scheduler.move, Function.update_eq_self] at hmove
    exact hmove

/-- `unlock`. -/
theorem Inv.unlock (h : Inv s)
    (hm : Moves s s.currentThread q (s.waiting s.currentThread) false) : Inv (s.unlock q) := by
  have hmove := h.move hm
  rw [Scheduler.move, Function.update_eq_self] at hmove
  exact hmove

section Advance

variable {id target : ℕ} {remover : Remover}

theorem inv_wait (h : Inv s) (hr : Runs s) {stage : WaitStage}
    (hpc : s.pc s.currentThread = .wait stage id target) (hstep : Waited s id target stage s') :
    Inv s' := by
  have hcreated := hr.created _ hr.mem
  cases hstep with
  | found hlock =>
    refine h.lock hcreated ?_ ?_ ?_ ?_ ?_ ?_ hlock <;> simp [hpc, Pc.expects, Pc.holdsLock]
  | locked =>
    have hholds : (s.pc s.currentThread).holdsLock = true := by rw [hpc]; rfl
    have hgoto : Inv (s.goto (.wait .linked id target)) := by
      refine h.goto ?_
      have hlocked := (h.mutex _ hholds).1
      constructor <;> simp_all [Pc.holdsLock, Pc.expects, Pc.outside]
    have hlink := hgoto.link (e := ⟨id, s.currentThread⟩) hcreated
      (by simp [Scheduler.goto, Pc.expects])
      (h.no_entry hholds fun w id => by rw [hpc]; rfl)
    exact hlink
  | linked =>
    refine h.unlock ?_
    constructor <;> simp_all [Pc.holdsLock, Pc.expects, Pc.outside]
  | unlocked =>
    refine h.move (w := true) (l := s.waitingLock) ?_
    constructor <;> simp_all [Pc.holdsLock, Pc.expects, Pc.outside]
  | flagged hswitch =>
    refine Inv.switch (h.goto ?_) hswitch
    constructor <;> simp_all [Pc.holdsLock, Pc.expects, Pc.outside]
  | yielded =>
    have hwaiting := hr.resumed (by rw [hpc]; rfl)
    refine h.goto ?_
    constructor <;> simp_all [Pc.holdsLock, Pc.expects, Pc.outside]

theorem inv_remove (h : Inv s) (hr : Runs s) {stage : RemoveStage}
    (hpc : s.pc s.currentThread = .remove stage remover id)
    (hstep : Removed s id remover stage s') : Inv s' := by
  have hcreated := hr.created _ hr.mem
  have hexits : remover = .exitThread → id = s.id s.currentThread := by
    rintro rfl
    exact h.exits _ _ _ hpc
  cases hstep with
  | called hlock =>
    refine h.lock hcreated ?_ ?_ ?_ ?_ ?_ ?_ hlock <;> simp_all [Pc.expects, Pc.holdsLock]
  | passedAll pos hend =>
    have hlocked := (h.mutex s.currentThread (by rw [hpc]; rfl)).1
    refine h.goto ?_
    constructor <;> simp_all [Pc.holdsLock, Pc.expects, Pc.outside]
  | woken pos entry hentry hid => exact h.clear hpc hentry
  | passed pos entry hentry hid =>
    have hlocked := (h.mutex s.currentThread (by rw [hpc]; rfl)).1
    refine h.goto ?_
    constructor <;> simp_all [Pc.holdsLock, Pc.expects, Pc.outside]
  | cleared pos => exact h.unlink hpc
  | scanned =>
    refine h.unlock ?_
    constructor <;> simp_all [Pc.holdsLock, Pc.expects, Pc.outside]
  | exited prev hprev hswitch =>
    -- the cleaner neither waits for a thread nor sleeps
    obtain ⟨c, hc⟩ := h.cleaner
    have hclear : Inv (s.setWaiting s.cleanerThread false) := by
      refine h.setWaiting_false (fun e _ _ => by rw [hc]; rfl) fun e he heq => ?_
      obtain ⟨-, b, hb⟩ := h.sleeps e he
      rw [heq, hc] at hb
      cases hb
    exact Inv.switch (hclear.frame ..) hswitch
  | destroyed t hfind =>
    refine Inv.frame (h.goto ?_) ..
    constructor <;> simp_all [Pc.holdsLock, Pc.expects, Pc.outside]

theorem inv_clean (h : Inv s) (hr : Runs s) {stage : CleanerStage}
    (hpc : s.pc s.currentThread = .cleaner stage) (hstep : Cleaned s stage s') : Inv s' := by
  have hcreated := hr.created _ hr.mem
  have hmoves : ∀ stage' w,
      Inv (s.move s.currentThread (.cleaner stage') w s.waitingLock) := by
    intro stage' w
    refine h.move ?_
    constructor <;> simp_all [Pc.holdsLock, Pc.expects, Pc.outside]
  have hgoto : ∀ stage', Inv (s.goto (.cleaner stage')) := fun stage' =>
    goto_eq_move (.cleaner stage') s ▸ hmoves stage' _
  cases hstep with
  | test => exact hgoto _
  | take t ts hdead => exact (hgoto _).frame ..
  | freeStack t => exact (hgoto _).frame ..
  | freeRecord t => exact (hgoto _).frame ..
  | rest => exact hmoves .yield true
  | yield hswitch => exact (hgoto .test).switch hswitch

theorem inv_advance (h : Inv s) (hr : Runs s) (hstep : Advanced s s') : Inv s' := by
  have hcreated := hr.created _ hr.mem
  cases hstep with
  | wait stage id target hpc hwait => exact inv_wait h hr hpc hwait
  | sleep hpc hswitch =>
    refine Inv.switch (h.goto ?_) hswitch
    constructor <;> simp_all [Pc.holdsLock, Pc.expects, Pc.outside]
  | resume hpc =>
    have hwaiting := hr.resumed (by rw [hpc]; rfl)
    refine h.goto ?_
    constructor <;> simp_all [Pc.holdsLock, Pc.expects, Pc.outside]
  | remove stage remover id hpc hremove => exact inv_remove h hr hpc hremove
  | freeStack t hpc =>
    refine Inv.frame (h.goto ?_) ..
    constructor <;> simp_all [Pc.holdsLock, Pc.expects, Pc.outside]
  | freeRecord t hpc =>
    refine Inv.frame (h.goto ?_) ..
    constructor <;> simp_all [Pc.holdsLock, Pc.expects, Pc.outside]
  | cleaner stage hpc hclean => exact inv_clean h hr hpc hclean

end Advance

theorem inv_call (h : Inv s) (hr : Runs s) (hpc : s.pc s.currentThread = .running) {c : Call}
    (hstep : Called s c s') : Inv s' := by
  have hcreated := hr.created _ hr.mem
  cases hstep with
  | createThread => exact h.create
  | waitForNone id hfind => exact h
  | waitForThread id target hfind =>
    refine h.goto ?_
    constructor <;> simp_all [Pc.holdsLock, Pc.expects, Pc.outside]
  | waitFemtoseconds time => exact h.sleep hcreated time hpc
  | cancelWait id hwake => exact h.wake hwake
  | exitThread hne =>
    refine h.goto ?_
    constructor <;> simp_all [Pc.holdsLock, Pc.expects, Pc.outside]
  | destroyThread id hne =>
    refine h.goto ?_
    constructor <;> simp_all [Pc.holdsLock, Pc.expects, Pc.outside]

theorem inv_step (h : Inv s) (hr : Runs s) {e : Event} (hstep : s.step e = some s') : Inv s' := by
  cases step_stepped hstep with
  | preempt hswitch => exact h.switch hswitch
  | hpetNone value => exact h
  | hpet value hwake => exact h.wake hwake
  | call c hpc hcall => exact inv_call h hr hpc hcall
  | advance hadvance => exact inv_advance h hr hadvance

/-! ### The current thread -/

/-- The thread that the step, the end of `destroyThread`, takes out of the ring. -/
def victim (s : Scheduler) : Event → Option ℕ
  | .advance =>
    match s.pc s.currentThread with
    | .remove .unlocked .destroyThread id => s.threadWithId id
    | _ => none
  | _ => none

theorem mem_of_mem_followers {ring : List ℕ} {u : ℕ} (hu : u ∈ followers ring t) : u ∈ ring := by
  unfold followers at hu
  split_ifs at hu with ht
  · rw [List.mem_append, List.mem_append, List.mem_singleton] at hu
    rcases hu with (hu | hu) | rfl
    · exact (List.dropWhile_sublist _).mem (List.mem_of_mem_tail hu)
    · exact (List.takeWhile_sublist _).mem hu
    · exact ht
  · cases hu

/-- The next thread is in the ring and not waiting. -/
theorem Runs.of_switch (hcreated : ∀ u ∈ s.ring, u < s.created) (hstep : s.switch t = some s') :
    Runs s' := by
  simp only [Scheduler.switch, bind, Option.bind_eq_some_iff, pure, Option.some.injEq] at hstep
  obtain ⟨next, hnext, rfl⟩ := hstep
  refine ⟨mem_of_mem_followers (List.mem_of_find?_eq_some hnext), hcreated, fun _ => ?_⟩
  simpa using List.find?_some hnext

theorem Runs.goto (hr : Runs s) (hq : q.yielded = false) : Runs (s.goto q) := by
  refine ⟨hr.mem, hr.created, fun hy => ?_⟩
  simp only [Scheduler.goto, Function.update_self, hq] at hy
  cases hy

/-- The step of a thread at a place that is no yield. -/
theorem Runs.setWaiting (hr : Runs s) {b : Bool} (hb : t = s.currentThread → b = false ∨
    (s.pc s.currentThread).yielded = false) : Runs (s.setWaiting t b) := by
  refine ⟨hr.mem, hr.created, fun hy => ?_⟩
  simp only [Scheduler.setWaiting, Function.update_apply]
  split_ifs with heq
  · exact (hb heq.symm).resolve_right (by simp only [Scheduler.setWaiting] at hy; simp [hy])
  · exact hr.resumed hy

theorem Runs.lock (hr : Runs s) (hq : q.yielded = false) (hstep : s.lock q = some s') : Runs s' := by
  unfold Scheduler.lock at hstep
  split_ifs at hstep
  · exact .of_switch hr.created hstep
  · obtain rfl := Option.some.inj hstep
    obtain ⟨hmem, hcreated, hresumed⟩ := hr.goto hq
    exact ⟨hmem, hcreated, hresumed⟩

theorem Runs.wake (hr : Runs s) {p : SleepEntry → Bool} (hwake : s.wake p = some s') : Runs s' := by
  simp only [Scheduler.wake, bind, Option.bind_eq_some_iff, pure, Option.some.injEq] at hwake
  obtain ⟨e, -, rfl⟩ := hwake
  obtain ⟨hmem, hcreated, hresumed⟩ := hr.setWaiting (t := e.thread) (b := false) fun _ => Or.inl rfl
  exact ⟨hmem, hcreated, hresumed⟩

theorem runs_wait (hr : Runs s) {stage : WaitStage} {id target : ℕ}
    (hstep : Waited s id target stage s') : Runs s' := by
  cases hstep with
  | found hlock => exact hr.lock rfl hlock
  | locked =>
    have hgoto := hr.goto (q := .wait .linked id target) rfl
    exact ⟨hgoto.mem, hgoto.created, hgoto.resumed⟩
  | linked =>
    have hgoto := hr.goto (q := .wait .unlocked id target) rfl
    exact ⟨hgoto.mem, hgoto.created, hgoto.resumed⟩
  | unlocked =>
    exact (hr.goto rfl).setWaiting fun _ => Or.inr (by simp [Scheduler.goto, Pc.yielded])
  | flagged hswitch =>
    exact .of_switch (s := s.goto (.wait .yielded id target)) hr.created hswitch
  | yielded => exact hr.goto rfl

theorem runs_remove (hr : Runs s) {stage : RemoveStage} {remover : Remover} {id : ℕ}
    (hpc : s.pc s.currentThread = .remove stage remover id)
    (hv : s.victim .advance ≠ some s.currentThread) (hstep : Removed s id remover stage s') :
    Runs s' := by
  cases hstep with
  | called hlock => exact hr.lock rfl hlock
  | passedAll pos hend => exact hr.goto rfl
  | woken pos entry hentry hid => exact (hr.goto rfl).setWaiting fun _ => Or.inl rfl
  | passed pos entry hentry hid => exact hr.goto rfl
  | cleared pos =>
    have hgoto := hr.goto (q := .remove (.scanning pos) remover id) rfl
    exact ⟨hgoto.mem, hgoto.created, hgoto.resumed⟩
  | scanned =>
    have hgoto := hr.goto (q := .remove .unlocked remover id) rfl
    exact ⟨hgoto.mem, hgoto.created, hgoto.resumed⟩
  | exited prev hprev hswitch =>
    refine Runs.of_switch (fun u hu => ?_) hswitch
    exact hr.created u (List.mem_of_mem_erase hu)
  | destroyed t hfind =>
    simp only [victim, hpc, hfind, ne_eq, Option.some.injEq] at hv
    have hgoto := hr.goto (q := .freeStack t) rfl
    exact ⟨(List.mem_erase_of_ne (Ne.symm hv)).2 hr.mem,
      fun u hu => hr.created u (List.mem_of_mem_erase hu), hgoto.resumed⟩

theorem runs_clean (hr : Runs s) {stage : CleanerStage} (hstep : Cleaned s stage s') : Runs s' := by
  have hgoto : ∀ stage', Runs (s.goto (.cleaner stage')) := fun stage' => hr.goto rfl
  cases hstep with
  | test => exact hgoto _
  | take t ts hdead => exact ⟨hr.mem, hr.created, (hgoto (.freeStack t)).resumed⟩
  | freeStack t => exact ⟨hr.mem, hr.created, (hgoto (.freeRecord t)).resumed⟩
  | freeRecord t => exact ⟨hr.mem, hr.created, (hgoto .test).resumed⟩
  | rest => exact (hgoto .yield).setWaiting fun _ => Or.inr (by simp [Scheduler.goto, Pc.yielded])
  | yield hswitch => exact .of_switch (s := s.goto (.cleaner .test)) hr.created hswitch

theorem runs_advance (hr : Runs s) (hv : s.victim .advance ≠ some s.currentThread)
    (hstep : Advanced s s') : Runs s' := by
  cases hstep with
  | wait stage id target hpc hwait => exact runs_wait hr hwait
  | sleep hpc hswitch => exact .of_switch (s := s.goto (.sleep true)) hr.created hswitch
  | resume hpc => exact hr.goto rfl
  | remove stage remover id hpc hremove => exact runs_remove hr hpc hv hremove
  | freeStack t hpc =>
    have hgoto := hr.goto (q := .freeRecord t) rfl
    exact ⟨hgoto.mem, hgoto.created, hgoto.resumed⟩
  | freeRecord t hpc =>
    have hgoto := hr.goto (q := .running) rfl
    exact ⟨hgoto.mem, hgoto.created, hgoto.resumed⟩
  | cleaner stage hpc hclean => exact runs_clean hr hclean

theorem runs_call (hr : Runs s) {c : Call} (hpc : s.pc s.currentThread = .running)
    (hstep : Called s c s') : Runs s' := by
  cases hstep with
  | createThread =>
    refine ⟨List.mem_append_left _ hr.mem, fun t ht => ?_, fun hy => ?_⟩
    · rcases List.mem_append.1 ht with ht | ht
      · exact Nat.lt_succ_of_lt (hr.created t ht)
      · rw [List.mem_singleton.1 ht]
        exact Nat.lt_succ_self _
    · have hne : s.currentThread ≠ s.created := (hr.created _ hr.mem).ne
      simp only at hy
      rw [Function.update_of_ne hne, hpc] at hy
      cases hy
  | waitForNone id hfind => exact hr
  | waitForThread id target hfind => exact hr.goto rfl
  | waitFemtoseconds time =>
    have hgoto := (hr.goto (q := .sleep false) rfl).setWaiting (t := s.currentThread) (b := true)
      fun _ => Or.inr (by simp [Scheduler.goto, Pc.yielded])
    exact ⟨hgoto.mem, hgoto.created, hgoto.resumed⟩
  | cancelWait id hwake => exact hr.wake hwake
  | exitThread hne => exact hr.goto rfl
  | destroyThread id hne => exact hr.goto rfl

/-- **The current thread stays in the ring**, unless it destroys itself. -/
theorem runs_step (hr : Runs s) {e : Event} (hv : s.victim e ≠ some s.currentThread)
    (hstep : s.step e = some s') : Runs s' := by
  cases step_stepped hstep with
  | preempt hswitch => exact .of_switch hr.created hswitch
  | hpetNone value => exact hr
  | hpet value hwake => exact hr.wake hwake
  | call c hpc hcall => exact runs_call hr hpc hcall
  | advance hadvance => exact runs_advance hr hv hadvance

end Scheduler

end Naul
