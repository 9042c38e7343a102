import Naul.Scheduler.Machine

/-!
# The branches of a step

For each function that makes a step, the relation of its states before and after has one constructor for
each branch, with the guard under which the branch is taken. `step_stepped` says that a step is one of
them. What the machine preserves is proved by cases on these relations.
-/

namespace Naul
namespace Scheduler

/-- `waitForThread`, after the search of the ring. -/
inductive Waited (s : Scheduler) (id target : ℕ) : WaitStage → Scheduler → Prop
  | found {s' : Scheduler} (hlock : s.lock (.wait .locked id target) = some s') :
      Waited s id target .found s'
  | locked : Waited s id target .locked
      { s.goto (.wait .linked id target) with
        waitingList := s.waitingList ++ [⟨id, s.currentThread⟩] }
  | linked : Waited s id target .linked (s.unlock (.wait .unlocked id target))
  | unlocked : Waited s id target .unlocked
      ((s.goto (.wait .flagged id target)).setWaiting s.currentThread true)
  | flagged {s' : Scheduler}
      (hswitch : (s.goto (.wait .yielded id target)).switch s.currentThread = some s') :
      Waited s id target .flagged s'
  | yielded : Waited s id target .yielded (s.goto .running)

/-- `exitThread` and `destroyThread`. -/
inductive Removed (s : Scheduler) (id : ℕ) : Remover → RemoveStage → Scheduler → Prop
  | called {remover : Remover} {s' : Scheduler}
      (hlock : s.lock (.remove (.scanning 0) remover id) = some s') :
      Removed s id remover .called s'
  | passedAll {remover : Remover} (pos : ℕ) (hend : s.waitingList[pos]? = none) :
      Removed s id remover (.scanning pos) (s.goto (.remove .scanned remover id))
  | woken {remover : Remover} (pos : ℕ) (entry : WaitingEntry)
      (hentry : s.waitingList[pos]? = some entry) (hid : entry.id = id) :
      Removed s id remover (.scanning pos)
        ((s.goto (.remove (.cleared pos) remover id)).setWaiting entry.thread false)
  | passed {remover : Remover} (pos : ℕ) (entry : WaitingEntry)
      (hentry : s.waitingList[pos]? = some entry) (hid : entry.id ≠ id) :
      Removed s id remover (.scanning pos) (s.goto (.remove (.scanning (pos + 1)) remover id))
  | cleared {remover : Remover} (pos : ℕ) : Removed s id remover (.cleared pos)
      { s.goto (.remove (.scanning pos) remover id) with
        waitingList := s.waitingList.eraseIdx pos }
  | scanned {remover : Remover} :
      Removed s id remover .scanned (s.unlock (.remove .unlocked remover id))
  | exited {s' : Scheduler} (prev : ℕ) (hprev : prevThread s.ring s.currentThread = some prev)
      (hswitch : ({ s with
        ring := s.ring.erase s.currentThread
        deadThreads := s.deadThreads ++ [s.currentThread] }.setWaiting s.cleanerThread false).switch
          prev = some s') :
      Removed s id .exitThread .unlocked s'
  | destroyed (t : ℕ) (hfind : s.threadWithId id = some t) :
      Removed s id .destroyThread .unlocked { s.goto (.freeStack t) with ring := s.ring.erase t }

/-- A turn of the loop of `cleaner`. -/
inductive Cleaned (s : Scheduler) : CleanerStage → Scheduler → Prop
  | test : Cleaned s .test (s.goto (.cleaner (if s.deadThreads ≠ [] then .take else .rest)))
  | take (t : ℕ) (ts : List ℕ) (hdead : s.deadThreads = t :: ts) :
      Cleaned s .take { s.goto (.cleaner (.freeStack t)) with deadThreads := ts }
  | freeStack (t : ℕ) : Cleaned s (.freeStack t)
      { s.goto (.cleaner (.freeRecord t)) with freedStacks := t :: s.freedStacks }
  | freeRecord (t : ℕ) : Cleaned s (.freeRecord t)
      { s.goto (.cleaner .test) with freedRecords := t :: s.freedRecords }
  | rest : Cleaned s .rest ((s.goto (.cleaner .yield)).setWaiting s.currentThread true)
  | yield {s' : Scheduler} (hswitch : (s.goto (.cleaner .test)).switch s.currentThread = some s') :
      Cleaned s .yield s'

/-- The next step of the current thread, by the place it is at. -/
inductive Advanced (s : Scheduler) : Scheduler → Prop
  | wait {s' : Scheduler} (stage : WaitStage) (id target : ℕ)
      (hpc : s.pc s.currentThread = .wait stage id target) (hwait : Waited s id target stage s') :
      Advanced s s'
  | sleep {s' : Scheduler} (hpc : s.pc s.currentThread = .sleep false)
      (hswitch : (s.goto (.sleep true)).switch s.currentThread = some s') : Advanced s s'
  | resume (hpc : s.pc s.currentThread = .sleep true) : Advanced s (s.goto .running)
  | remove {s' : Scheduler} (stage : RemoveStage) (remover : Remover) (id : ℕ)
      (hpc : s.pc s.currentThread = .remove stage remover id)
      (hremove : Removed s id remover stage s') : Advanced s s'
  | freeStack (t : ℕ) (hpc : s.pc s.currentThread = .freeStack t) :
      Advanced s { s.goto (.freeRecord t) with freedStacks := t :: s.freedStacks }
  | freeRecord (t : ℕ) (hpc : s.pc s.currentThread = .freeRecord t) :
      Advanced s { s.goto .running with freedRecords := t :: s.freedRecords }
  | cleaner {s' : Scheduler} (stage : CleanerStage) (hpc : s.pc s.currentThread = .cleaner stage)
      (hclean : Cleaned s stage s') : Advanced s s'

/-- A call. -/
inductive Called (s : Scheduler) : Call → Scheduler → Prop
  | createThread : Called s .createThread
      { s with
        ring := s.ring ++ [s.created]
        created := s.created + 1
        id := Function.update s.id s.created (freeId (s.ring.map s.id) 0 s.ring.length)
        waiting := Function.update s.waiting s.created false
        pc := Function.update s.pc s.created .running }
  | waitForNone (id : ℕ) (hfind : s.threadWithId id = none) : Called s (.waitForThread id) s
  | waitForThread (id target : ℕ) (hfind : s.threadWithId id = some target) :
      Called s (.waitForThread id) (s.goto (.wait .found id target))
  | waitFemtoseconds (time : UInt64) : Called s (.waitFemtoseconds time)
      { (s.goto (.sleep false)).setWaiting s.currentThread true with
        sleepingList := s.sleepingList ++ [⟨time, s.currentThread⟩] }
  | cancelWait {s' : Scheduler} (id : ℕ) (hwake : s.wake (fun e => s.id e.thread = id) = some s') :
      Called s (.cancelWait id) s'
  | exitThread (hne : s.currentThread ≠ 0) :
      Called s .exitThread (s.goto (.remove .called .exitThread (s.id s.currentThread)))
  | destroyThread (id : ℕ) (hne : id ≠ 0) :
      Called s (.destroyThread id) (s.goto (.remove .called .destroyThread id))

inductive Stepped (s : Scheduler) : Event → Scheduler → Prop
  | preempt {s' : Scheduler} (hswitch : s.switch s.currentThread = some s') : Stepped s .preempt s'
  | hpetNone (value : UInt64) : Stepped s (.hpet value) s
  | hpet {s' : Scheduler} (value : UInt64) (hwake : s.wake (fun e => e.time = value) = some s') :
      Stepped s (.hpet value) s'
  | call {s' : Scheduler} (c : Call) (hpc : s.pc s.currentThread = .running) (hcall : Called s c s') :
      Stepped s (.call c) s'
  | advance {s' : Scheduler} (hadvance : Advanced s s') : Stepped s .advance s'

variable {s s' : Scheduler}

theorem wait_waited {stage : WaitStage} {id target : ℕ} (h : s.wait stage id target = some s') :
    Waited s id target stage s' := by
  cases stage with
  | found => exact .found h
  | locked => exact Option.some.inj h ▸ .locked
  | linked => exact Option.some.inj h ▸ .linked
  | unlocked => exact Option.some.inj h ▸ .unlocked
  | flagged => exact .flagged h
  | yielded => exact Option.some.inj h ▸ .yielded

theorem remove_removed {stage : RemoveStage} {remover : Remover} {id : ℕ}
    (h : s.remove stage remover id = some s') : Removed s id remover stage s' := by
  cases stage with
  | called => exact .called h
  | scanning pos =>
    simp only [remove] at h
    split at h
    · rename_i hend
      exact Option.some.inj h ▸ .passedAll pos hend
    · rename_i entry hentry
      split_ifs at h with hid
      · exact Option.some.inj h ▸ .woken pos entry hentry hid
      · exact Option.some.inj h ▸ .passed pos entry hentry hid
  | cleared pos => exact Option.some.inj h ▸ .cleared pos
  | scanned => exact Option.some.inj h ▸ .scanned
  | unlocked =>
    cases remover with
    | exitThread =>
      simp only [remove, leave, bind, Option.bind_eq_some_iff] at h
      obtain ⟨prev, hprev, hswitch⟩ := h
      exact .exited prev hprev hswitch
    | destroyThread =>
      simp only [remove, destroy, bind, Option.bind_eq_some_iff, pure, Option.some.injEq] at h
      obtain ⟨t, hfind, rfl⟩ := h
      exact .destroyed t hfind

theorem clean_cleaned {stage : CleanerStage} (h : s.clean stage = some s') : Cleaned s stage s' := by
  cases stage with
  | test => exact Option.some.inj h ▸ .test
  | take =>
    simp only [clean] at h
    split at h
    · cases h
    · rename_i t ts hdead
      exact Option.some.inj h ▸ .take t ts hdead
  | freeStack t => exact Option.some.inj h ▸ .freeStack t
  | freeRecord t => exact Option.some.inj h ▸ .freeRecord t
  | rest => exact Option.some.inj h ▸ .rest
  | yield => exact .yield h

theorem advance_advanced (h : s.advance = some s') : Advanced s s' := by
  unfold advance at h
  split at h
  · cases h
  · rename_i stage id target hpc
    exact .wait stage id target hpc (wait_waited h)
  · rename_i hpc
    exact .sleep hpc h
  · rename_i hpc
    exact Option.some.inj h ▸ .resume hpc
  · rename_i stage remover id hpc
    exact .remove stage remover id hpc (remove_removed h)
  · rename_i t hpc
    exact Option.some.inj h ▸ .freeStack t hpc
  · rename_i t hpc
    exact Option.some.inj h ▸ .freeRecord t hpc
  · rename_i stage hpc
    exact .cleaner stage hpc (clean_cleaned h)

theorem call_called {c : Call} (h : s.call c = some s') : Called s c s' := by
  cases c with
  | createThread => exact Option.some.inj h ▸ .createThread
  | waitForThread id =>
    simp only [call] at h
    split at h
    · rename_i hfind
      exact Option.some.inj h ▸ .waitForNone id hfind
    · rename_i target hfind
      exact Option.some.inj h ▸ .waitForThread id target hfind
  | waitFemtoseconds time => exact Option.some.inj h ▸ .waitFemtoseconds time
  | cancelWait id => exact .cancelWait id h
  | exitThread =>
    simp only [call] at h
    split_ifs at h with hne
    exact Option.some.inj h ▸ .exitThread hne
  | destroyThread id =>
    simp only [call] at h
    split_ifs at h with hne
    exact Option.some.inj h ▸ .destroyThread id hne

/-- **Every step is one of the branches.** -/
theorem step_stepped {e : Event} (h : s.step e = some s') : Stepped s e s' := by
  cases e with
  | preempt => exact .preempt h
  | hpet value =>
    simp only [step, Option.some.injEq] at h
    subst h
    cases hwake : s.wake fun e => e.time = value with
    | none => exact .hpetNone value
    | some u => exact .hpet value hwake
  | call c =>
    simp only [step] at h
    split_ifs at h with hpc
    exact .call c hpc (call_called h)
  | advance => exact .advance (advance_advanced h)

end Scheduler
end Naul
