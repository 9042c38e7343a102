import Naul.Scheduler.Conservation
import Naul.Allocator.Holdings
import Naul.Paging.Table

/-!
# Processes (`os/src/processes.c`, with `createThread`)

`execute` copies a program into a block of its own, builds tables that map it, and creates a thread
while the tables are in `cr3`, so that they are in the frame of the new thread. The threads that the
new thread creates have them too. `quit` gives back the program and the tables, with the tables still
in `cr3`, and then goes to `exitThread`.

The scheduler's machine and the allocator are underneath, and each of the calls is followed step by
step; the lock makes each use of the allocator one step. `cr3 t` is the register while thread `t`
runs, and the value in its frame while another does. Of the tables, `image` keeps where they map
`PROCESS_ADDRESS`; what the threads store into their blocks is left out. `Holder` is a ghost.
-/

namespace Naul

namespace Processes

/-- Who holds a block: whoever called `allocate`, a thread as its stack or its record, `createThread`
in thread `t` until the new thread is linked, `execute` in thread `t` for the name of the symbols, and
the processes. -/
inductive Holder
  | client
  | stack (t : ℕ)
  | record (t : ℕ)
  | newStack (t : ℕ)
  | newRecord (t : ℕ)
  | symbolsFile (t : ℕ)
  | process
  deriving DecidableEq

/-- What `execute` finds for a name: the size of the file, the length of the name, and the size of the
table of symbols, where there is a file of symbols. -/
structure File where
  size : UInt64
  nameLength : UInt64
  symbols : Option UInt64
  deriving DecidableEq

/-- What `execute` restores at its end. -/
structure Saved where
  table : UInt64
  oldSymbols : UInt64
  deriving DecidableEq

/-- The place of a thread, with its local variables. In `execute`: before the allocation of the
program, of the name and of the symbols, before `unallocate`, before `createTable`, before the load of
`cr3`, and before the restoration. In `createThread`, which `execute` calls with `saved`: before the
two allocations, and before `cli`. In `quit`: before each `unallocate` and before `exitThread`. -/
inductive Doing
  | idle
  | program (file : File)
  | symbolsFile (file : File) (program : UInt64)
  | symbols (file : File) (program symbolsFile : UInt64)
  | freeSymbolsFile (file : File) (program symbolsFile oldSymbols : UInt64)
  | table (file : File) (program oldSymbols : UInt64)
  | load (created oldSymbols : UInt64)
  | record (saved : Option Saved)
  | stack (record : UInt64) (saved : Option Saved)
  | link (record stack : UInt64) (saved : Option Saved)
  | restore (saved : Saved)
  | quitProgram
  | quitTable
  | quitSymbols
  | exitThread
  deriving DecidableEq

/-- Where `createThread` returns to. -/
def Doing.after : Option Saved → Doing
  | some saved => .restore saved
  | none => .idle

/-- `#define STACK_SIZE 0x100000`. -/
def stackSize : UInt64 := 0x100000

/-- `sizeof(Thread)`. -/
def sizeofThread : UInt64 := 72

/-- `sizeof(uint64_t)`. -/
def sizeofEntry : UInt64 := 8

end Processes

/-- The scheduler, the allocator, the kernel's own tables, and the fields of the threads. -/
structure Processes where
  scheduler : Scheduler
  allocator : Holdings Processes.Holder
  mainTable : UInt64
  image : UInt64 → UInt64
  cr3 : ℕ → UInt64
  stack : ℕ → UInt64
  record : ℕ → UInt64
  symbols : ℕ → UInt64
  doing : ℕ → Processes.Doing

namespace Processes

inductive Event
  /-- A step of the scheduler, but not `createThread`. -/
  | schedule (e : Scheduler.Event)
  | allocate (amount : UInt64)
  | allocateAligned (amount alignment : UInt64)
  | unallocate (pointer : UInt64)
  | execute (file : File)
  | createThread
  | quit
  /-- The current thread goes on with what it is doing. -/
  | advance
  deriving DecidableEq

def current (k : Processes) : ℕ := k.scheduler.currentThread

def goto (d : Doing) (k : Processes) : Processes :=
  { k with doing := Function.update k.doing k.current d }

def setSymbols (symbols : UInt64) (k : Processes) : Processes :=
  { k with symbols := Function.update k.symbols k.current symbols }

/-- `mov %0, %%cr3`. -/
def setCr3 (table : UInt64) (k : Processes) : Processes :=
  { k with cr3 := Function.update k.cr3 k.current table }

def schedule (e : Scheduler.Event) (k : Processes) : Option Processes := do
  let s ← k.scheduler.step e
  return { k with scheduler := s }

def unallocate (fuel : ℕ) (pointer : UInt64) (k : Processes) : Option Processes := do
  let allocator ← k.allocator.unallocate fuel pointer
  return { k with allocator }

/-- An allocation by the current thread, which goes on to `d` with the address. -/
def allocate (fuel : ℕ) (o : Holder) (amount : UInt64) (d : UInt64 → Doing) (k : Processes) :
    Option Processes := do
  let (value, allocator) ← k.allocator.allocate fuel o amount
  return { k with allocator }.goto (d value)

def allocateAligned (fuel : ℕ) (o : Holder) (amount alignment : UInt64) (d : UInt64 → Doing)
    (k : Processes) : Option Processes := do
  let (value, allocator) ← k.allocator.allocateAligned fuel o amount alignment
  return { k with allocator }.goto (d value)

/-- The current thread is in no function of the kernel. -/
def AtRest (k : Processes) : Prop :=
  k.scheduler.pc k.current = .running ∧ k.doing k.current = .idle

instance decidableAtRest (k : Processes) : Decidable k.AtRest := inferInstanceAs (Decidable (_ ∧ _))

/-- The pages of a program: `(size - 1) / PAGE_SIZE + 1`, without the word in front of it. -/
def File.pages (file : File) : UInt64 := (file.size - sizeofEntry - 1) / pageSize + 1

/-- The holder of the blocks that `createThread` in thread `t` has allocated, after it has linked
thread `n`. -/
def Holder.link (t n : ℕ) : Holder → Holder
  | .newStack u => if u = t then .stack n else .newStack u
  | .newRecord u => if u = t then .record n else .newRecord u
  | o => o

/-- The record of thread `n`, which the current thread creates: its frame has the `cr3` of the current
thread. -/
def start (n : ℕ) (record stack : UInt64) (k : Processes) : Processes :=
  { k with
    allocator := k.allocator.rename (Holder.link k.current n)
    cr3 := Function.update k.cr3 n (k.cr3 k.current)
    stack := Function.update k.stack n stack
    record := Function.update k.record n record
    symbols := Function.update k.symbols n (k.symbols k.current)
    doing := Function.update k.doing n .idle }

def advance (fuel : ℕ) (k : Processes) : Option Processes :=
  let t := k.current
  match k.doing t with
  | .idle => none
  | .program file =>
    k.allocateAligned fuel .process (file.size - sizeofEntry) pageSize (.symbolsFile file)
  | .symbolsFile file program =>
    k.allocate fuel (.symbolsFile t) (file.nameLength + 1) (.symbols file program)
  | .symbols file program symbolsFile =>
    let next := .freeSymbolsFile file program symbolsFile (k.symbols t)
    match file.symbols with
    | some size => do
      let (symbols, allocator) ← k.allocator.allocate fuel .process size
      return ({ k with allocator }.goto next).setSymbols symbols
    | none => some ((k.goto next).setSymbols 0)
  | .freeSymbolsFile file program symbolsFile oldSymbols =>
    (k.goto (.table file program oldSymbols)).unallocate fuel symbolsFile
  | .table file program oldSymbols => do
    let (table, allocator) ←
      k.allocator.allocateAligned fuel .process (tableSize file.pages) pageAlignment
    return { k with allocator, image := Function.update k.image table program }.goto
      (.load table oldSymbols)
  | .load table oldSymbols =>
    some ((k.goto (.record (some ⟨k.cr3 t, oldSymbols⟩))).setCr3 table)
  | .record saved => k.allocate fuel (.newRecord t) sizeofThread fun record => .stack record saved
  | .stack record saved =>
    k.allocateAligned fuel (.newStack t) stackSize 16 fun stack => .link record stack saved
  | .link record stack saved =>
    ((k.goto (.after saved)).start k.scheduler.created record stack).schedule (.call .createThread)
  | .restore saved => some (((k.goto .idle).setCr3 saved.table).setSymbols saved.oldSymbols)
  | .quitProgram => (k.goto .quitTable).unallocate fuel (k.image (k.cr3 t))
  | .quitTable => (k.goto .quitSymbols).unallocate fuel (k.cr3 t)
  | .quitSymbols =>
    if k.symbols t ≠ 0 then (k.goto .exitThread).unallocate fuel (k.symbols t)
    else some (k.goto .exitThread)
  | .exitThread => (k.goto .idle).schedule (.call .exitThread)

/-- What the step of `destroyThread` or of `cleaner` passes to `unallocate`. -/
def released (k : Processes) : Option UInt64 :=
  match k.scheduler.pc k.current with
  | .freeStack t | .cleaner (.freeStack t) => some (k.stack t)
  | .freeRecord t | .cleaner (.freeRecord t) => some (k.record t)
  | _ => none

def step (fuel : ℕ) (k : Processes) : Event → Option Processes
  | .schedule .preempt => k.schedule .preempt
  | .schedule (.hpet value) => k.schedule (.hpet value)
  | .schedule .advance =>
    if k.doing k.current = .idle then
      match k.released with
      | some pointer => (k.unallocate fuel pointer).bind (schedule .advance)
      | none => k.schedule .advance
    else none
  | .schedule (.call .createThread) => none
  | .schedule (.call c) => if k.doing k.current = .idle then k.schedule (.call c) else none
  | .allocate amount => if k.AtRest then k.allocate fuel .client amount fun _ => .idle else none
  | .allocateAligned amount alignment =>
    if k.AtRest then k.allocateAligned fuel .client amount alignment fun _ => .idle else none
  | .unallocate pointer =>
    if k.AtRest ∧ k.allocator.Holds .client pointer then k.unallocate fuel pointer else none
  | .execute file => if k.AtRest then some (k.goto (.program file)) else none
  | .createThread => if k.AtRest then some (k.goto (.record none)) else none
  | .quit => if k.AtRest then some (k.goto .quitProgram) else none
  | .advance => k.advance fuel

end Processes

end Naul
