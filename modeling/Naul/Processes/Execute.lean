import Naul.Allocator.Accounts
import Naul.Filesystem.Names
import Naul.Paging.First
import Naul.Processes
import Naul.Symbols

/-!
# A program from `execute` to the cleaner (`os/src/processes.c`)

`execute` runs in the calling thread, `quit` in the thread it has created, and the loop of `cleaner` in
the cleaner's. Between them they allocate and release six blocks: the program, the name of the symbol
file, the symbols, the tables, and the record and the stack of the thread.

The bytes of the files, the allocator and the words of the tables are here; `Naul.Processes` has the
same functions among all others, one step at a time. Which thread runs next, and the id of the new one,
are the scheduler's.
-/

namespace Naul

/-- The fields of a `Thread` that are used here, with the address of the record. `ip` is in its frame,
and so is `cr3` while it does not run. -/
structure ThreadRecord where
  address : UInt64
  stack : UInt64
  symbols : UInt64
  symbolCount : UInt64
  cr3 : UInt64
  ip : UInt64
  deriving DecidableEq

/-- The files with their bytes, the allocator, the words of the memory, and the threads. -/
structure Execution where
  files : Filesystem
  contents : UInt64 → ℕ → UInt8
  mainPdpt : UInt64
  allocator : Allocator
  memory : Cells UInt64
  currentThread : ThreadRecord
  deadThreads : List ThreadRecord

namespace Execution

open Symbols

/-- `"sym"`. -/
def extension : List UInt8 := [115, 121, 109]

/-- `symbolsFile` after the second `copyString`: the last three characters are replaced. -/
def symbolsName (filename : CString) : CString :=
  ⟨filename.bytes.take (stringLength filename.bytes - 3) ++ extension, by
    rw [List.mem_append, not_or]
    exact ⟨fun h => filename.nul_free (List.mem_of_mem_take h), by decide⟩⟩

/-- `*(void (**)())data`. -/
def entryPoint (data : ℕ → UInt8) : UInt64 :=
  (readBytes data 0 8).foldr (fun c ip => ip * 256 + c.toUInt64) 0

/-- The number of pages of a program: `(size - 1) / PAGE_SIZE + 1`. -/
def programPages (size : UInt64) : UInt64 := (size - 1) / pageSize + 1

def setSymbols (symbols symbolCount : UInt64) (k : Execution) : Execution :=
  { k with currentThread := { k.currentThread with symbols, symbolCount } }

def setCr3 (cr3 : UInt64) (k : Execution) : Execution :=
  { k with currentThread := { k.currentThread with cr3 } }

/-- `if (hasSymbols)`: the pointer and the count that are stored in the thread. -/
def readTable (fuel : ℕ) (symbolsFile : CString) (hasSymbols : Bool) (t : Allocator) (k : Execution) :
    Option (SymbolTable × Allocator) :=
  if hasSymbols then parseSymbols fuel symbolsFile k.files k.contents t else some (⟨0, [], 0⟩, t)

/-- The part of `execute` about the symbols: from `nameLength` to `unallocate(symbolsFile)`. -/
def loadSymbols (fuel : ℕ) (filename : CString) (k : Execution) : Option Execution := do
  let nameLength := UInt64.ofNat (stringLength filename.bytes)
  let (symbolsFile, allocator) ← k.allocator.allocate fuel (nameLength + 1)
  let hasSymbols ← k.files.checkFile fuel (symbolsName filename)
  let (table, allocator) ← k.readTable fuel (symbolsName filename) hasSymbols allocator
  let allocator ← allocator.unallocate fuel symbolsFile
  return { k with allocator }.setSymbols table.address table.count

/-- `createThread(function)`: the new thread has the symbols and the tables of the current one. -/
def createThread (fuel : ℕ) (function : UInt64) (k : Execution) : Option (ThreadRecord × Execution) := do
  let (thread, allocator) ← k.allocator.allocate fuel Processes.sizeofThread
  let (stack, allocator) ← allocator.allocateAligned fuel Processes.stackSize 16
  return (⟨thread, stack, k.currentThread.symbols, k.currentThread.symbolCount, k.currentThread.cr3,
    function⟩, { k with allocator })

/-- The part of `execute` after the symbols, with `table` in `cr3` while the thread is created. -/
def launch (fuel : ℕ) (data program size : UInt64) (k : Execution) : Option (ThreadRecord × Execution) := do
  let table := k.currentThread.cr3
  let (cr3, memory, allocator) ←
    Naul.createTable fuel k.mainPdpt program (programPages size) k.memory k.allocator
  let (thread, k) ← ({ k with memory, allocator }.setCr3 cr3).createThread fuel (entryPoint (k.contents data))
  return (thread, k.setCr3 table)

/-- `execute(filename)`: the thread it creates, and the state afterwards. -/
def execute (fuel : ℕ) (filename : CString) (k : Execution) : Option (ThreadRecord × Execution) := do
  let (data, size) ← k.files.getFile fuel filename
  let size := size - Processes.sizeofEntry
  let (program, allocator) ← k.allocator.allocateAligned fuel size pageSize
  let oldSymbols := k.currentThread.symbols
  let oldCount := k.currentThread.symbolCount
  let k ← { k with allocator }.loadSymbols fuel filename
  let (thread, k) ← k.launch fuel data program size
  return (thread, k.setSymbols oldSymbols oldCount)

/-- What `exitThread` does to the threads. -/
def exitThread (k : Execution) : Execution :=
  { k with deadThreads := k.deadThreads ++ [k.currentThread] }

/-- `if (currentThread->symbols)`. -/
def freeSymbols (fuel : ℕ) (symbols : UInt64) (t : Allocator) : Option Allocator :=
  if symbols ≠ 0 then t.unallocate fuel symbols else some t

/-- `quit()`. -/
def quit (fuel : ℕ) (k : Execution) : Option Execution := do
  let program := getAddress k.memory k.currentThread.cr3 processAddress
  let allocator ← k.allocator.unallocate fuel program
  let allocator ← allocator.unallocate fuel k.currentThread.cr3
  let allocator ← freeSymbols fuel k.currentThread.symbols allocator
  return { k with allocator }.exitThread

/-- `while (deadThreads.next != &deadThreads)` of `cleaner`. -/
def freeDead (fuel : ℕ) : List ThreadRecord → Allocator → Option Allocator
  | [], t => some t
  | thread :: deadThreads, t => do
    let t ← t.unallocate fuel thread.stack
    let t ← t.unallocate fuel thread.address
    freeDead fuel deadThreads t

/-- A pass of `cleaner`. -/
def cleaner (fuel : ℕ) (k : Execution) : Option Execution := do
  let allocator ← freeDead fuel k.deadThreads k.allocator
  return { k with allocator, deadThreads := [] }

/-- The rest of the program's life, in its own thread and in the cleaner's; `memory` is what the program
has made of the memory. -/
def finish (fuel : ℕ) (thread : ThreadRecord) (memory : Cells UInt64) (k : Execution) : Option Execution := do
  let k ← { k with currentThread := thread, memory }.quit fuel
  k.cleaner fuel

end Execution

end Naul
