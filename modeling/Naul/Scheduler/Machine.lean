import Naul.Lib.Trace

/-!
# Threads (`os/src/scheduler.c`, with the sleeping list of `os/src/hpet.c`)

There is one processor. What a thread does between two points at which the timer may interrupt it is
one step: a section between `cli` and `sti`, one access to a variable other threads use, one test of
`waitingLock`. The place a thread is at between its steps is its `Pc`. The current thread `advance`s
or, outside these functions, makes a `call`; between any two steps `updateScheduler` may switch to
the next thread of the ring that is not waiting, and `hpet` may wake a sleeping thread.

A thread is named by the number of threads created before it, so that a name is never used again; its
id is, as in the source, the least one no thread of the ring has. The kernel's own thread, the record
`threads`, is thread 0, at the head of the ring. It neither exits nor is destroyed.

A thread that destroys itself goes on, on a stack and a record that it gives back. It is followed as
far as its next switch, which reads the links of that record.
-/

namespace Naul

/-- The place in `waitForThread` after the search of the ring: before `lock`, before `linkList`,
before `unlock`, before the store of the flag, before the yield, and after it. -/
inductive WaitStage
  | found
  | locked
  | linked
  | unlocked
  | flagged
  | yielded
  deriving DecidableEq

/-- The place in `exitThread` or `destroyThread`: before `lock`; in the loop, past `pos` entries; in
the loop, between the store of the flag and `unlinkList` for the entry after `pos` others; after the
loop; after `unlock`. -/
inductive RemoveStage
  | called
  | scanning (pos : ℕ)
  | cleared (pos : ℕ)
  | scanned
  | unlocked
  deriving DecidableEq

inductive Remover
  | exitThread
  | destroyThread
  deriving DecidableEq

/-- The place in the loop of `cleaner`: before the test of `deadThreads`, before the removal, before
the two calls of `unallocate`, before the store of the flag, and before the yield. -/
inductive CleanerStage
  | test
  | take
  | freeStack (thread : ℕ)
  | freeRecord (thread : ℕ)
  | rest
  | yield
  deriving DecidableEq

/-- The place a thread is at. `target` is the thread `waitForThread` found; the source does not keep
it. -/
inductive Pc
  | running
  | wait (stage : WaitStage) (id target : ℕ)
  | sleep (yielded : Bool)
  | remove (stage : RemoveStage) (remover : Remover) (id : ℕ)
  | freeStack (thread : ℕ)
  | freeRecord (thread : ℕ)
  | cleaner (stage : CleanerStage)
  deriving DecidableEq

/-- The fields of a `WaitingEntry` after its header. -/
structure WaitingEntry where
  id : ℕ
  thread : ℕ
  deriving DecidableEq

/-- An entry of `sleepingList`. -/
structure SleepEntry where
  time : UInt64
  thread : ℕ
  deriving DecidableEq

/-- The variables of the scheduler and the fields of the threads; `freedStacks` and `freedRecords`
are the threads whose memory has been given back, the latest first. -/
structure Scheduler where
  ring : List ℕ
  currentThread : ℕ
  deadThreads : List ℕ
  cleanerThread : ℕ
  waitingList : List WaitingEntry
  waitingLock : Bool
  sleepingList : List SleepEntry
  created : ℕ
  id : ℕ → ℕ
  waiting : ℕ → Bool
  pc : ℕ → Pc
  freedStacks : List ℕ
  freedRecords : List ℕ

namespace Scheduler

/-- What a thread may call. -/
inductive Call
  | createThread
  | waitForThread (id : ℕ)
  | waitFemtoseconds (time : UInt64)
  | cancelWait (id : ℕ)
  | exitThread
  | destroyThread (id : ℕ)
  deriving DecidableEq

inductive Event
  /-- The scheduler's interrupt. -/
  | preempt
  /-- The interrupt of the timer, whose comparator holds `value`. -/
  | hpet (value : UInt64)
  | call (c : Call)
  /-- The current thread takes its next step. -/
  | advance
  deriving DecidableEq

/-! ### The searches of the ring -/

/-- The threads after `t` in the ring, in order, and `t` at the end. -/
def followers (ring : List ℕ) (t : ℕ) : List ℕ :=
  if t ∈ ring then (ring.dropWhile (· ≠ t)).tail ++ ring.takeWhile (· ≠ t) ++ [t] else []

/-- `nextThread`, from `t`; it does not return when every thread is waiting. -/
def nextThread (ring : List ℕ) (waiting : ℕ → Bool) (t : ℕ) : Option ℕ :=
  (followers ring t).find? fun u => !waiting u

/-- `thread->header.prev`, for a thread of the ring but its head. -/
def prevThread (ring : List ℕ) (t : ℕ) : Option ℕ :=
  if t ∈ ring then (ring.takeWhile (· ≠ t)).getLast? else none

/-- The search of `createThread`: the least id from `id` on that is not one of `ids`. As many turns as
there are `ids` are enough. -/
def freeId (ids : List ℕ) (id : ℕ) : ℕ → ℕ
  | 0 => id
  | fuel + 1 => if id ∈ ids then freeId ids (id + 1) fuel else id

/-- The thread that `waitForThread` and `destroyThread` search for. -/
def threadWithId (s : Scheduler) (id : ℕ) : Option ℕ := s.ring.find? fun t => s.id t = id

/-! ### Steps -/

/-- The current thread goes to `p`. -/
def goto (p : Pc) (s : Scheduler) : Scheduler :=
  { s with pc := Function.update s.pc s.currentThread p }

def setWaiting (t : ℕ) (b : Bool) (s : Scheduler) : Scheduler :=
  { s with waiting := Function.update s.waiting t b }

/-- A switch from thread `t`. -/
def switch (t : ℕ) (s : Scheduler) : Option Scheduler := do
  let next ← nextThread s.ring s.waiting t
  return { s with currentThread := next }

/-- `lock(&waitingLock)`: one turn of its loop, which ends at `p`. -/
def lock (p : Pc) (s : Scheduler) : Option Scheduler :=
  if s.waitingLock then s.switch s.currentThread
  else some { s.goto p with waitingLock := true }

/-- `unlock(&waitingLock)`. -/
def unlock (p : Pc) (s : Scheduler) : Scheduler := { s.goto p with waitingLock := false }

def wait (stage : WaitStage) (id target : ℕ) (s : Scheduler) : Option Scheduler :=
  match stage with
  | .found => s.lock (.wait .locked id target)
  | .locked =>
    some { s.goto (.wait .linked id target) with
      waitingList := s.waitingList ++ [⟨id, s.currentThread⟩] }
  | .linked => some (s.unlock (.wait .unlocked id target))
  | .unlocked => some ((s.goto (.wait .flagged id target)).setWaiting s.currentThread true)
  | .flagged => (s.goto (.wait .yielded id target)).switch s.currentThread
  | .yielded => some (s.goto .running)

/-- The end of `exitThread`, between `cli` and the switch. -/
def leave (s : Scheduler) : Option Scheduler := do
  let prev ← prevThread s.ring s.currentThread
  let s := { s with
    ring := s.ring.erase s.currentThread
    deadThreads := s.deadThreads ++ [s.currentThread] }
  (s.setWaiting s.cleanerThread false).switch prev

/-- The end of `destroyThread`, between `cli` and `sti`; the search does not return when no thread has
the id. -/
def destroy (id : ℕ) (s : Scheduler) : Option Scheduler := do
  let t ← s.threadWithId id
  return { s.goto (.freeStack t) with ring := s.ring.erase t }

def remove (stage : RemoveStage) (remover : Remover) (id : ℕ) (s : Scheduler) : Option Scheduler :=
  match stage with
  | .called => s.lock (.remove (.scanning 0) remover id)
  | .scanning pos =>
    match s.waitingList[pos]? with
    | none => some (s.goto (.remove .scanned remover id))
    | some entry =>
      if entry.id = id then
        some ((s.goto (.remove (.cleared pos) remover id)).setWaiting entry.thread false)
      else some (s.goto (.remove (.scanning (pos + 1)) remover id))
  | .cleared pos =>
    some { s.goto (.remove (.scanning pos) remover id) with
      waitingList := s.waitingList.eraseIdx pos }
  | .scanned => some (s.unlock (.remove .unlocked remover id))
  | .unlocked =>
    match remover with
    | .exitThread => s.leave
    | .destroyThread => s.destroy id

/-- A turn of the loop of `cleaner`. -/
def clean (stage : CleanerStage) (s : Scheduler) : Option Scheduler :=
  match stage with
  | .test => some (s.goto (.cleaner (if s.deadThreads ≠ [] then .take else .rest)))
  | .take =>
    match s.deadThreads with
    | [] => none
    | t :: ts => some { s.goto (.cleaner (.freeStack t)) with deadThreads := ts }
  | .freeStack t =>
    some { s.goto (.cleaner (.freeRecord t)) with freedStacks := t :: s.freedStacks }
  | .freeRecord t => some { s.goto (.cleaner .test) with freedRecords := t :: s.freedRecords }
  | .rest => some ((s.goto (.cleaner .yield)).setWaiting s.currentThread true)
  | .yield => (s.goto (.cleaner .test)).switch s.currentThread

def advance (s : Scheduler) : Option Scheduler :=
  match s.pc s.currentThread with
  | .running => none
  | .wait stage id target => s.wait stage id target
  | .sleep false => (s.goto (.sleep true)).switch s.currentThread
  | .sleep true => some (s.goto .running)
  | .remove stage remover id => s.remove stage remover id
  | .freeStack t => some { s.goto (.freeRecord t) with freedStacks := t :: s.freedStacks }
  | .freeRecord t => some { s.goto .running with freedRecords := t :: s.freedRecords }
  | .cleaner stage => s.clean stage

/-- The first entry of the sleeping list with `p` is unlinked, and its thread woken. -/
def wake (p : SleepEntry → Bool) (s : Scheduler) : Option Scheduler := do
  let entry ← s.sleepingList.find? p
  return { s.setWaiting entry.thread false with sleepingList := s.sleepingList.eraseP p }

/-- A call. What `createThread` and `waitFemtoseconds` do before `cli` concerns no other thread;
`time` is the deadline. `cancelWait` is for a thread that sleeps. -/
def call (s : Scheduler) : Call → Option Scheduler
  | .createThread =>
    some { s with
      ring := s.ring ++ [s.created]
      created := s.created + 1
      id := Function.update s.id s.created (freeId (s.ring.map s.id) 0 s.ring.length)
      waiting := Function.update s.waiting s.created false
      pc := Function.update s.pc s.created .running }
  | .waitForThread id =>
    match s.threadWithId id with
    | none => some s
    | some target => some (s.goto (.wait .found id target))
  | .waitFemtoseconds time =>
    some { (s.goto (.sleep false)).setWaiting s.currentThread true with
      sleepingList := s.sleepingList ++ [⟨time, s.currentThread⟩] }
  | .cancelWait id => s.wake fun e => s.id e.thread = id
  | .exitThread =>
    if s.currentThread = 0 then none
    else some (s.goto (.remove .called .exitThread (s.id s.currentThread)))
  | .destroyThread id =>
    if id = 0 then none else some (s.goto (.remove .called .destroyThread id))

def step (s : Scheduler) : Event → Option Scheduler
  | .preempt => s.switch s.currentThread
  | .hpet value => some ((s.wake fun e => e.time = value).getD s)
  | .call c => if s.pc s.currentThread = .running then s.call c else none
  | .advance => s.advance

end Scheduler

end Naul
