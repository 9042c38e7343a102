import Naul.Scheduler.Trampolines

/-!
# System calls (`src/syscalls.c`, `include/calls.h`, `programs/include/`)

A function of `programs/include` has the number of a system call and its arguments loaded into registers,
and executes `int $0x69`; `syscallTrampoline` calls `syscallHandler`, which calls what is registered under
the number. Both sides declare the functions under the same names, in `Syscall`.

`syscall_runs` is about the whole way: the function of the kernel with the name of that of the program runs
on the program's arguments, and the program goes on with its registers as they were.
-/

namespace Naul

open Stack

/-- The functions that a program calls and the kernel has. -/
inductive Syscall
  | allocate
  | allocateAligned
  | unallocate
  | getUsage
  | reboot
  | shutdown
  | checkFolder
  | checkFile
  | createFolder
  | createFile
  | getFiles
  | getFile
  | deleteFile
  | getFemtoseconds
  | waitFemtoseconds
  | cancelWait
  | createThread
  | waitForThread
  | destroyThread
  | exitThread
  | registerKeyboard
  | unregisterKeyboard
  | registerMouse
  | unregisterMouse
  | obtainDisplay
  | releaseDisplay
  | registerTty
  | unregisterTty
  | put
  | write
  | read
  | execute
  | quit
  | registerListener
  | unregisterListener
  | checkListener
  | sendMessage
  deriving DecidableEq

namespace Syscall

/-- `enum Syscalls`, whose members number themselves. -/
inductive Code
  | ALLOCATE
  | ALLOCATE_ALIGNED
  | UNALLOCATE
  | GET_USAGE
  | REBOOT
  | SHUTDOWN
  | CHECK_FOLDER
  | CHECK_FILE
  | CREATE_FOLDER
  | CREATE_FILE
  | GET_FILES
  | GET_FILE
  | DELETE_FILE
  | GET_FEMTOSECONDS
  | WAIT_FEMTOSECONDS
  | CANCEL_WAIT
  | CREATE_THREAD
  | WAIT_FOR_THREAD
  | DESTROY_THREAD
  | EXIT_THREAD
  | REGISTER_KEYBOARD
  | UNREGISTER_KEYBOARD
  | REGISTER_MOUSE
  | UNREGISTER_MOUSE
  | OBTAIN_DISPLAY
  | RELEASE_DISPLAY
  | REGISTER_TTY
  | UNREGISTER_TTY
  | PUT
  | WRITE
  | READ
  | EXECUTE
  | QUIT
  | REGISTER_LISTENER
  | UNREGISTER_LISTENER
  | CHECK_LISTENER
  | SEND_MESSAGE
  deriving DecidableEq

def Code.value (c : Code) : UInt64 := .ofNat c.ctorIdx

/-! ### The side of the program -/

/-- The macro that a function of `programs/include` is: its number, and that of its arguments. -/
def macroOf : Syscall → Code × ℕ
  | allocate => (.ALLOCATE, 1)
  | allocateAligned => (.ALLOCATE_ALIGNED, 2)
  | unallocate => (.UNALLOCATE, 1)
  | getUsage => (.GET_USAGE, 0)
  | reboot => (.REBOOT, 0)
  | shutdown => (.SHUTDOWN, 0)
  | checkFolder => (.CHECK_FOLDER, 1)
  | checkFile => (.CHECK_FILE, 1)
  | createFolder => (.CREATE_FOLDER, 1)
  | createFile => (.CREATE_FILE, 2)
  | getFiles => (.GET_FILES, 2)
  | getFile => (.GET_FILE, 2)
  | deleteFile => (.DELETE_FILE, 1)
  | getFemtoseconds => (.GET_FEMTOSECONDS, 0)
  | waitFemtoseconds => (.WAIT_FEMTOSECONDS, 1)
  | cancelWait => (.CANCEL_WAIT, 1)
  | createThread => (.CREATE_THREAD, 1)
  | waitForThread => (.WAIT_FOR_THREAD, 1)
  | destroyThread => (.DESTROY_THREAD, 1)
  | exitThread => (.EXIT_THREAD, 0)
  | registerKeyboard => (.REGISTER_KEYBOARD, 1)
  | unregisterKeyboard => (.UNREGISTER_KEYBOARD, 1)
  | registerMouse => (.REGISTER_MOUSE, 1)
  | unregisterMouse => (.UNREGISTER_MOUSE, 1)
  | obtainDisplay => (.OBTAIN_DISPLAY, 1)
  | releaseDisplay => (.RELEASE_DISPLAY, 0)
  | registerTty => (.REGISTER_TTY, 1)
  | unregisterTty => (.UNREGISTER_TTY, 1)
  | put => (.PUT, 1)
  | write => (.WRITE, 1)
  | read => (.READ, 2)
  | execute => (.EXECUTE, 1)
  | quit => (.QUIT, 0)
  | registerListener => (.REGISTER_LISTENER, 2)
  | unregisterListener => (.UNREGISTER_LISTENER, 1)
  | checkListener => (.CHECK_LISTENER, 1)
  | sendMessage => (.SEND_MESSAGE, 5)

variable {l : Layout}

/-- The number and the arguments are loaded, in the order of the arguments of a function. -/
def load (number : UInt64) (args : List UInt64) (c : Cpu l) : Cpu l :=
  ((List.ofFn argument).zip (number :: args)).foldl (fun c x => c.setReg x.1 x.2) c

/-- `SYSCALL_0` to `SYSCALL_5`, with and without a result; `handler` is the address of
`syscallTrampoline`. -/
def syscall (handler ret : UInt64) (body : Processor l → Processor l) (number : UInt64) (args : List UInt64)
    (p : Processor l) : Processor l :=
  syscallTrampoline ret body (trap handler { p with cpu := load number args p.cpu })

/-! ### The side of the kernel -/

/-- The number of parameters in the kernel's prototype. -/
def parameters : Syscall → ℕ
  | getUsage | reboot | shutdown | getFemtoseconds | exitThread | releaseDisplay | quit => 0
  | allocate | unallocate => 1
  | checkFolder | checkFile | createFolder | deleteFile => 1
  | waitFemtoseconds | cancelWait => 1
  | createThread | waitForThread | destroyThread => 1
  | registerKeyboard | unregisterKeyboard | registerMouse | unregisterMouse | obtainDisplay => 1
  | registerTty | unregisterTty | put | write => 1
  | execute | unregisterListener | checkListener => 1
  | allocateAligned | createFile | getFiles | getFile | read | registerListener => 2
  | sendMessage => 5

/-- `syscallHandlers`. -/
abbrev Table := UInt64 → Option Syscall

def registerSyscall (code : Code) (handler : Syscall) (table : Table) : Table :=
  Function.update table code.value (some handler)

/-- The calls of `registerSyscall` in the functions that `boot` and `kernel` call. -/
def registrations : List (Code × Syscall) :=
  -- `initAllocator`
  [(.ALLOCATE, allocate), (.ALLOCATE_ALIGNED, allocateAligned), (.UNALLOCATE, unallocate),
    (.GET_USAGE, getUsage),
  -- `initFilesystem`
    (.CHECK_FOLDER, checkFolder), (.CHECK_FILE, checkFile), (.CREATE_FOLDER, createFolder),
    (.CREATE_FILE, createFile), (.GET_FILES, getFiles), (.GET_FILE, getFile), (.DELETE_FILE, deleteFile),
  -- `initHpet`
    (.GET_FEMTOSECONDS, getFemtoseconds), (.WAIT_FEMTOSECONDS, waitFemtoseconds),
    (.CANCEL_WAIT, cancelWait),
  -- `initScheduler`
    (.CREATE_THREAD, createThread), (.WAIT_FOR_THREAD, waitForThread), (.DESTROY_THREAD, destroyThread),
    (.EXIT_THREAD, exitThread),
  -- `initPower`
    (.REBOOT, reboot), (.SHUTDOWN, shutdown),
  -- `initKeyboard`
    (.REGISTER_KEYBOARD, registerKeyboard), (.UNREGISTER_KEYBOARD, unregisterKeyboard),
  -- `initMouse`
    (.REGISTER_MOUSE, registerMouse), (.UNREGISTER_MOUSE, unregisterMouse),
  -- `initDisplay`
    (.OBTAIN_DISPLAY, obtainDisplay), (.RELEASE_DISPLAY, releaseDisplay),
  -- `initTty`
    (.REGISTER_TTY, registerTty), (.UNREGISTER_TTY, unregisterTty), (.PUT, put), (.WRITE, write),
    (.READ, read),
  -- `initProcesses`
    (.EXECUTE, execute), (.QUIT, quit),
  -- `initIpc`
    (.REGISTER_LISTENER, registerListener), (.UNREGISTER_LISTENER, unregisterListener),
    (.CHECK_LISTENER, checkListener), (.SEND_MESSAGE, sendMessage)]

def syscallHandlers : Table := registrations.foldl (fun t r => registerSyscall r.1 r.2 t) fun _ => none

/-- What the functions of the kernel do with their arguments. -/
abbrev Functions := Syscall → List UInt64 → (UInt64 → UInt64) → Option (UInt64 × (UInt64 → UInt64))

/-- `syscallHandler`. A call through an entry that is not registered is not defined. -/
def syscallHandler (functions : Functions) (table : Table) : CFunction := fun a m => do
  let f ← table (a 0)
  functions f (((List.ofFn a).drop 1).take f.parameters) m

/-! ### What is called -/

/-- The last registration of a number counts. -/
theorem foldl_registerSyscall {rs : List (Code × Syscall)} (hnodup : (rs.map fun r => r.1.value).Nodup)
    (t : Table) {r : Code × Syscall} (hr : r ∈ rs) :
    rs.foldl (fun t r => registerSyscall r.1 r.2 t) t r.1.value = some r.2 := by
  induction rs using List.reverseRecOn with
  | nil => cases hr
  | append_singleton rs s ih =>
    rw [List.map_append, List.nodup_append] at hnodup
    rw [List.foldl_append, List.foldl_cons, List.foldl_nil, registerSyscall]
    rcases List.mem_append.1 hr with hr | hr
    · have hne : r.1.value ≠ s.1.value := hnodup.2.2 _ (List.mem_map_of_mem hr) _ (by simp)
      rw [Function.update_of_ne hne, ih hnodup.1 hr]
    · rw [List.mem_singleton.1 hr, Function.update_self]

/-- Under the number of a program's function the kernel has registered its own function of that name. -/
theorem syscallHandlers_macroOf (f : Syscall) : syscallHandlers f.macroOf.1.value = some f := by
  have hmem : (f.macroOf.1, f) ∈ registrations := by cases f <;> decide
  exact foldl_registerSyscall (by decide) _ hmem

theorem macroOf_parameters (f : Syscall) : f.macroOf.2 = f.parameters := by cases f <;> rfl

/-- The registers that are loaded. -/
theorem load_arguments (number : UInt64) {args : List UInt64} (hargs : args.length ≤ 5) (c : Cpu l) :
    (load number args c).arguments 0 = number ∧
      ((List.ofFn (load number args c).arguments).drop 1).take args.length = args := by
  rcases args with - | ⟨a, - | ⟨b, - | ⟨d, - | ⟨e, - | ⟨f, - | ⟨g, args⟩⟩⟩⟩⟩⟩
  all_goals
    first
    | exact ⟨rfl, rfl⟩
    | simp only [List.length_cons] at hargs; omega

/-- The processor of a program at the instruction. -/
def atInstruction (f : Syscall) (args : List UInt64) (p : Processor l) : Processor l :=
  { p with cpu := load f.macroOf.1.value args p.cpu }

/-- **A system call runs the function of the kernel with the same name**, on the arguments of the program.
Afterwards the program's registers are as they were, `rip` is past the instruction, and `rax` is what the
function returned; memory is what the function has left, apart from the stack that it used. -/
theorem syscall_runs {functions : Functions} {depth : ℕ} {body : Processor l → Processor l}
    (hbody : Compiled (syscallHandler functions syscallHandlers) depth 8 body) (hdepth : depth < 2 ^ 60)
    (f : Syscall) {args : List UInt64} (hargs : args.length = f.macroOf.2) {handler ret v : UInt64}
    {p q : Processor l} (hq : q = atInstruction f args p) {m : UInt64 → UInt64}
    (hf : functions f args (callMemory q syscallHigh handlerLow ret) = some (v, m))
    (hkeep : ∀ b ∈ guarded q syscallHigh handlerLow, m b = callMemory q syscallHigh handlerLow ret b) :
    (syscall handler ret body f.macroOf.1.value args p).cpu = q.cpu.setReg .rax v ∧
      ∀ b ∉ scratch q syscallHigh handlerLow depth,
        (syscall handler ret body f.macroOf.1.value args p).memory b = m b := by
  have hall : ∀ r, (r = .rsp ∨ r ∈ syscallHigh ∨ r ∈ handlerLow) ∨ r = .rax := by
    intro r
    cases r <;> decide
  have hsyscall : syscall handler ret body f.macroOf.1.value args p =
      trampoline (pushAround syscallHigh handlerLow) (popAround syscallHigh handlerLow) ret body
        (trap handler q) := by
    rw [hq, syscall, syscallTrampoline_eq, atInstruction]
  have hle : args.length ≤ 5 := by
    rw [hargs]
    cases f <;> decide
  -- `syscallHandler` calls the function with the arguments that were loaded
  obtain ⟨hnumber, hrest⟩ := load_arguments f.macroOf.1.value hle p.cpu
  have hcall : syscallHandler functions syscallHandlers q.cpu.arguments
      (callMemory q syscallHigh handlerLow ret) = some (v, m) := by
    rw [← hf, syscallHandler, hq]
    change (syscallHandlers ((load f.macroOf.1.value args p.cpu).arguments 0)).bind _ = _
    rw [hnumber, syscallHandlers_macroOf, Option.bind_some, ← macroOf_parameters, ← hargs]
    change functions f (((List.ofFn (load f.macroOf.1.value args p.cpu).arguments).drop 1).take args.length) _ = _
    rw [hrest]
  obtain ⟨hrsp, hmemory⟩ := interrupt_frame handler (p := q) rfl
  rw [hsyscall]
  obtain ⟨hcpu, hm⟩ := trampoline_calls hbody (by decide) (by decide) hall (by decide)
    (by cases l <;> rfl) (interrupted_trap handler q) hrsp (by rw [← hrsp] at hmemory; exact hmemory) hcall
    hkeep hdepth
  refine ⟨?_, hm⟩
  rw [hcpu]
  refine Cpu.ext (funext fun r => ?_) rfl rfl rfl rfl rfl rfl
  by_cases hr : r = .rsp ∨ r ∈ syscallHigh ∨ r ∈ handlerLow
  · have hne : r ≠ .rax := by
      rintro rfl
      exact absurd hr (by decide)
    rw [setReg_of_ne _ hne]
    exact if_pos hr
  · rw [(hall r).resolve_left hr, setReg_self]
    rfl

/-- A program cancels the wait of a thread that does not sleep. -/
theorem syscall_runs_cancelWait :
    (syscall 0x2000 0x1000 returns cancelWait.macroOf.1.value [5] idle).cpu =
        (atInstruction cancelWait [5] idle).cpu.setReg .rax 0 ∧
      ∀ b ∉ scratch (atInstruction cancelWait [5] idle) syscallHigh handlerLow 0,
        (syscall 0x2000 0x1000 returns cancelWait.macroOf.1.value [5] idle).memory b =
          callMemory (atInstruction cancelWait [5] idle) syscallHigh handlerLow 0x1000 b := by
  have hbody : Compiled (l := .avx2) (syscallHandler (fun _ _ m => some (0, m)) syscallHandlers) 0 8 returns := by
    refine compiled_returns fun a m v m' h => ?_
    obtain ⟨f, -, hf⟩ := Option.bind_eq_some_iff.1 h
    obtain ⟨rfl, rfl⟩ := Prod.mk.inj (Option.some.inj hf)
    exact ⟨rfl, rfl⟩
  exact syscall_runs hbody (by decide) cancelWait rfl rfl rfl fun _ _ => rfl

end Syscall

end Naul
