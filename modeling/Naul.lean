import Naul.Lib.WhileLoop
import Naul.Lib.Trace
import Naul.Lib.Fuel
import Naul.Lib.LinkRing
import Naul.Lib.Cells
import Naul.List
import Naul.List.Stores
import Naul.List.Sequence
import Naul.Str
import Naul.Lib.Numeral
import Naul.Str.Numerals
import Naul.Str.Canonical
import Naul.Str.Compare
import Naul.Mem
import Naul.Allocator.Table
import Naul.Allocator.Scan
import Naul.Allocator.Update
import Naul.Allocator.Search
import Naul.Allocator.Disjoint
import Naul.Allocator.Ownership
import Naul.Allocator.Accounts
import Naul.Allocator.FirstFit
import Naul.Allocator.Room
import Naul.Allocator.Usage
import Naul.Allocator.Stale
import Naul.Allocator.Boot
import Naul.Allocator.Holdings
import Naul.Lib.Bits
import Naul.Paging.Table
import Naul.Paging.Build
import Naul.Paging.Walk
import Naul.Paging.First
import Naul.Filesystem
import Naul.Filesystem.Names
import Naul.Filesystem.Directory
import Naul.Filesystem.Deletion
import Naul.Lib.FirstMatch
import Naul.Allocator.Batches
import Naul.Symbols
import Naul.Symbols.Lookup
import Naul.Symbols.Parse
import Naul.Hpet.Timer
import Naul.Hpet.Deadlines
import Naul.Hpet.Early
import Naul.Hpet.Comparator
import Naul.Scheduler.Machine
import Naul.Scheduler.Steps
import Naul.Scheduler.Ring
import Naul.Scheduler.Ids
import Naul.Scheduler.Invariant
import Naul.Scheduler.Entries
import Naul.Scheduler.Wake
import Naul.Scheduler.Rounds
import Naul.Scheduler.Cleaner
import Naul.Scheduler.Lookup
import Naul.Scheduler.Join
import Naul.Scheduler.Turn
import Naul.Scheduler.Conservation
import Naul.Scheduler.Fairness
import Naul.Scheduler.Locks
import Naul.Lib.LockOrder
import Naul.Scheduler.Mutex
import Naul.Scheduler.Progress
import Naul.Processes
import Naul.Processes.Housed
import Naul.Processes.Execute
import Naul.Processes.Neutral
import Naul.Registries
import Naul.Interrupts
import Naul.Ipc
import Naul.Ipc.Dispatch
import Naul.Terminal.Draw
import Naul.Terminal.Pixels
import Naul.Terminal.Cursor
import Naul.Terminal.Display
import Naul.Terminal.Grid
import Naul.Terminal.Refine
import Naul.Terminal.Line
import Naul.Tty
import Naul.Tty.Ids
import Naul.Tty.Read
import Naul.Tty.Slots
import Naul.Lib.RingBuffer
import Naul.Input
import Naul.Input.Queues
import Naul.Input.Packets
import Naul.Lib.Stack
import Naul.Scheduler.Frame
import Naul.Scheduler.Switch
import Naul.Scheduler.Trampolines
import Naul.Syscalls
import Naul.Processes.Registrations
import Naul.Compatibility.Stdio
import Naul.Compatibility.Handles
import Naul.Lib.FormatString
import Naul.Compatibility.Format
import Naul.Compatibility.Printf
import Naul.Compatibility.Items
import Naul.Compatibility.Conversions
import Naul.Compatibility.Numbers
import Naul.Compatibility.Printed
import Naul.Lib.LittleEndian
import Naul.Ipc.Names
import Naul.Tty.Calls
import Naul.Terminal.Glyphs
import Naul.Terminal.Panic
import Naul.Terminal.Output
import Naul.Bmp
import Naul.Lib.FileTree
import Naul.Boot.Folder
import Naul.Boot.Import
import Naul.Acpi
import Naul.Boot.Madt
import Naul.Boot.Devices
import Naul.Panic
import Naul.Power
import Naul.Processes.Image
import Naul.Boot.Files
