import Naul.Registries
import Naul.Lib.Trace

/-!
# Messages (`os/src/ipc.c`)

A process registers a handler under a name, and anybody may send a message to the name: the handler is
called under the page tables of the process that registered it, and the sender's are loaded again when
it returns. `listeners` is one ring for all processes; it may have several elements of one name, and
several of one handler.

Abstractly it is a list of registrations in their order (`Registered`). `ipc_routes` says that the
functions do with the ring what one expects of the list: `registerListener` puts an element at the end,
`unregisterListener` takes out the first with the handler and the caller's tables, `checkListener` and
`sendMessage` look for the first with the name.
-/

namespace Naul

open LinkRing

/-- The number of characters of `name` in a `ListenerElement`, with the NUL. -/
def nameSize : ℕ := 256

/-- The stores of `registerListener(handler, name)` to its element, where `cr3` is `paging`. What
`copyString` does with a name that does not fit is not modelled. -/
def fillListener (element paging handler : UInt64) (name : CString) (s : Listeners) : Option Listeners :=
  if stringLength name.bytes < nameSize then
    some { s with element := Function.update s.element element ⟨name, paging, handler⟩ }
  else none

/-- The part of `registerListener` under the lock. -/
def linkListener (element : UInt64) (s : Listeners) : Listeners :=
  { s with links := linkList s.links s.listeners element }

/-- `registerListener(handler, name)` after `allocate`, which has returned `element`. -/
def registerListener (element paging handler : UInt64) (name : CString) (s : Listeners) :
    Option Listeners := do
  let s ← fillListener element paging handler name s
  return linkListener element s

/-- The variable `element` of `sendMessage(name, …)` at `unlock`. -/
def findListener (fuel : ℕ) (name : CString) (s : Listeners) : Option UInt64 :=
  findElement fuel s.links s.listeners fun e => compareStrings (s.element e).name.bytes name.bytes = 0

theorem fillListener_eq {name : CString} (hlength : name.bytes.length ≤ 255)
    (element paging handler : UInt64) (s : Listeners) :
    fillListener element paging handler name s =
      some { s with element := Function.update s.element element ⟨name, paging, handler⟩ } :=
  if_pos (by rw [stringLength_eq]; exact Nat.lt_succ_of_le hlength)

theorem fillListener_some {name : CString} {element paging handler : UInt64} {s s' : Listeners}
    (h : fillListener element paging handler name s = some s') :
    s' = { s with element := Function.update s.element element ⟨name, paging, handler⟩ } := by
  unfold fillListener at h
  split_ifs at h
  exact (Option.some.inj h).symm

/-- `arg1`, …, `arg4`. -/
structure Arguments where
  (arg1 arg2 arg3 arg4 : UInt64)

/-- The registry, and the page tables of the thread that runs. -/
structure Ipc where
  registry : Listeners
  cr3 : UInt64

namespace Ipc

/-- `sendMessage(name, …)`; `call` is what the code at an address does when it is called. -/
def sendMessage (fuel : ℕ) (call : UInt64 → Arguments → Ipc → UInt64 × Ipc) (name : CString)
    (arguments : Arguments) (s : Ipc) : Option (UInt64 × Ipc) := do
  let element ← findListener fuel name s.registry
  let oldPaging := s.cr3
  let s := { s with cr3 := (s.registry.element element).paging }
  let (value, s) := call (s.registry.element element).handler arguments s
  return (value, { s with cr3 := oldPaging })

inductive Op
  /-- `registerListener(handler, name)`, for which `allocate` has returned `element`. -/
  | registerListener (element handler : UInt64) (name : CString)
  | unregisterListener (handler : UInt64)
  /-- A thread with other page tables runs. -/
  | resume (cr3 : UInt64)

def step (fuel : ℕ) (s : Ipc) : Op → Option Ipc
  | .registerListener element handler name => do
    let registry ← Naul.registerListener element s.cr3 handler name s.registry
    return { s with registry }
  | .unregisterListener handler => do
    let (_, registry) ← Naul.unregisterListener fuel s.cr3 handler s.registry
    return { s with registry }
  | .resume cr3 => some { s with cr3 }

/-! ### Registrations -/

/-- The registrations that have not been removed, in their order, each with the address of its element;
and the page tables of the thread that runs. -/
structure Registered where
  registrations : List (UInt64 × ListenerElement)
  cr3 : UInt64

/-- The registration is one of `unregisterListener(handler)`, called under the tables `cr3`. -/
def Keyed (cr3 handler : UInt64) (r : UInt64 × ListenerElement) : Bool :=
  r.2.paging = cr3 && r.2.handler = handler

/-- The registration is one under the name. -/
def Named (name : CString) (r : UInt64 × ListenerElement) : Bool := r.2.name = name

/-- What a call makes of the registrations. -/
def Registered.step (a : Registered) : Op → Registered
  | .registerListener element handler name =>
    { a with registrations := a.registrations ++ [(element, ⟨name, a.cr3, handler⟩)] }
  | .unregisterListener handler =>
    { a with registrations := a.registrations.eraseP (Keyed a.cr3 handler) }
  | .resume cr3 => { a with cr3 }

/-- A name has at most 255 characters, and the block `allocate` has returned for it is not that of an
element, nor the sentinel; a handler that is unregistered has been registered under the caller's
tables. -/
def Registered.Proper (listeners : UInt64) (a : Registered) : Op → Prop
  | .registerListener element _ name =>
    name.bytes.length ≤ 255 ∧ element ∉ listeners :: a.registrations.map Prod.fst
  | .unregisterListener handler => ∃ r ∈ a.registrations, Keyed a.cr3 handler r = true
  | .resume _ => True

instance decidableProper (listeners : UInt64) (a : Registered) : ∀ op, Decidable (a.Proper listeners op)
  | .registerListener _ _ _ => inferInstanceAs (Decidable (_ ∧ _))
  | .unregisterListener handler =>
    inferInstanceAs (Decidable (∃ r ∈ a.registrations, Keyed a.cr3 handler r = true))
  | .resume _ => isTrue trivial

/-- The ring has the registrations, at their addresses and in their order. -/
structure Refines (listeners : UInt64) (s : Ipc) (a : Registered) : Prop where
  head : s.registry.listeners = listeners
  ring : IsRing s.registry.links listeners (a.registrations.map Prod.fst)
  element : ∀ r ∈ a.registrations, s.registry.element r.1 = r.2
  cr3 : s.cr3 = a.cr3

variable {s s' : Ipc} {a : Registered} {listeners : UInt64} {op : Op} {name : CString}

/-- A search of the ring ends at the first registration it looks for. -/
theorem Refines.find (h : Refines listeners s a) (p : ListenerElement → Bool) :
    findElement ((a.registrations.map Prod.fst).length + 1) s.registry.links s.registry.listeners
        (fun e => p (s.registry.element e)) =
      some (((a.registrations.find? fun r => p r.2).map Prod.fst).getD listeners) := by
  rw [h.head]
  exact findElement_map h.ring fun r hr => congrArg p (h.element r hr)

theorem Refines.checkListener (h : Refines listeners s a) (name : CString) :
    ∃ k, Naul.checkListener k name s.registry = some (a.registrations.any (Named name)) := by
  refine ⟨(a.registrations.map Prod.fst).length + 1, ?_⟩
  have hany := @foldUntil_any _ (a.registrations.map Prod.fst)
    fun e => decide ((s.registry.element e).name = name)
  simp only [decide_eq_true_eq] at hany
  simp only [Naul.checkListener, compareStrings_eq_zero_iff, h.head, run_iterate h.ring]
  rw [hany, List.any_map, Option.some.injEq, Bool.eq_iff_iff, List.any_eq_true, List.any_eq_true]
  refine exists_congr fun r => and_congr_right fun hr => ?_
  rw [Function.comp_apply, h.element r hr]
  rfl

/-- `sendMessage` calls the handler of the first registration under the name, under its tables. -/
theorem Refines.sendMessage (h : Refines listeners s a) {r : UInt64 × ListenerElement}
    (hr : a.registrations.find? (Named name) = some r) (call : UInt64 → Arguments → Ipc → UInt64 × Ipc)
    (arguments : Arguments) :
    ∃ k, s.sendMessage k call name arguments =
      some ((call r.2.handler arguments { s with cr3 := r.2.paging }).1,
        { (call r.2.handler arguments { s with cr3 := r.2.paging }).2 with cr3 := s.cr3 }) := by
  refine ⟨(a.registrations.map Prod.fst).length + 1, ?_⟩
  have hfind := h.find fun e => decide (e.name = name)
  rw [show (fun r : UInt64 × ListenerElement => decide (r.2.name = name)) = Named name from rfl, hr]
    at hfind
  have hfound : findListener ((a.registrations.map Prod.fst).length + 1) name s.registry = some r.1 := by
    simp only [findListener, compareStrings_eq_zero_iff, eq_comm (a := name)]
    exact hfind
  rw [Ipc.sendMessage, hfound]
  simp only [bind, Option.bind_some, pure, h.element r (List.mem_of_find?_eq_some hr)]

theorem Refines.registerListener (h : Refines listeners s a) {element handler : UInt64}
    (hproper : a.Proper listeners (.registerListener element handler name)) :
    ∃ registry, Naul.registerListener element s.cr3 handler name s.registry = some registry ∧
      Refines listeners { s with registry } (a.step (.registerListener element handler name)) := by
  obtain ⟨hlength, hfresh⟩ := hproper
  have hregister : Naul.registerListener element s.cr3 handler name s.registry =
      some (linkListener element { s.registry with
        element := Function.update s.registry.element element ⟨name, s.cr3, handler⟩ }) := by
    simp only [Naul.registerListener, fillListener_eq hlength, bind, Option.bind_some, pure]
  refine ⟨_, hregister, h.head, ?_, fun r hr => ?_, h.cr3⟩
  · rw [Registered.step, List.map_append]
    dsimp only [linkListener]
    rw [h.head]
    exact isRing_linkList h.ring hfresh
  · dsimp only [linkListener]
    rcases List.mem_append.1 hr with hold | hnew
    · have hne : r.1 ≠ element := by
        rintro rfl
        exact hfresh (List.mem_cons_of_mem _ (List.mem_map_of_mem hold))
      rw [Function.update_of_ne hne, h.element r hold]
    · rw [List.mem_singleton.1 hnew, Function.update_self, h.cr3]

theorem Refines.unregisterListener (h : Refines listeners s a) {handler : UInt64}
    (hproper : a.Proper listeners (.unregisterListener handler)) :
    ∃ k e registry, Naul.unregisterListener k s.cr3 handler s.registry = some (e, registry) ∧
      Refines listeners { s with registry } (a.step (.unregisterListener handler)) := by
  have hkeyed : ∀ r ∈ a.registrations, (decide ((s.registry.element r.1).paging = s.cr3) &&
      decide ((s.registry.element r.1).handler = handler)) = Keyed a.cr3 handler r := fun r hr => by
    rw [h.element r hr, h.cr3, Keyed]
  obtain ⟨r, links, hunlink, -, hring⟩ := unlinkFound_map h.ring (p := fun e =>
    decide ((s.registry.element e).paging = s.cr3) && decide ((s.registry.element e).handler = handler))
    hkeyed hproper
  rw [← h.head] at hunlink
  refine ⟨(a.registrations.map Prod.fst).length + 1, r.1, { s.registry with links }, ?_, h.head, hring,
    fun q hq => ?_, h.cr3⟩
  · simp only [Naul.unregisterListener, hunlink, bind, Option.bind_some, pure]
  · rw [Registered.step] at hq
    exact h.element q (List.mem_of_mem_eraseP hq)

theorem refines_step (h : Refines listeners s a) (hproper : a.Proper listeners op) :
    ∃ n s', s.step n op = some s' ∧ Refines listeners s' (a.step op) := by
  cases op with
  | registerListener element handler name =>
    obtain ⟨registry, hregister, hrefines⟩ := h.registerListener hproper
    exact ⟨0, _, by simp only [step, hregister, bind, Option.bind_some, pure], hrefines⟩
  | unregisterListener handler =>
    obtain ⟨k, e, registry, hunregister, hrefines⟩ := h.unregisterListener hproper
    exact ⟨k, _, by simp only [step, hunregister, bind, Option.bind_some, pure], hrefines⟩
  | resume cr3 => exact ⟨0, _, rfl, h.head, h.ring, h.element, rfl⟩

theorem step_mono : Trace.FuelMono step := by
  intro m n s op s' hmn hstep
  cases op with
  | registerListener element handler name => exact hstep
  | unregisterListener handler =>
    simp only [step, Naul.unregisterListener, unlinkFound, bind, Option.bind_eq_some_iff] at hstep ⊢
    obtain ⟨r, ⟨q, ⟨x, hx, hq⟩, hr⟩, hs'⟩ := hstep
    exact ⟨r, ⟨q, ⟨x, WhileLoop.run_mono hmn hx, hq⟩, hr⟩, hs'⟩
  | resume cr3 => exact hstep

/-- **Messages reach the earliest registration.** A run of registrations and removals is performed, and
leaves on the ring the registrations that have not been removed, in their order. `checkListener` says
whether one of them has the name, and `sendMessage` calls the handler of the first that has it, under
its tables, and loads the sender's again. -/
theorem ipc_routes {ops : List Op} (h0 : IsRing s.registry.links s.registry.listeners [])
    (hC : Trace.Along (fun a op => some (Registered.step a op))
      (Registered.Proper s.registry.listeners) ⟨[], s.cr3⟩ ops) :
    ∃ n s', Trace.run (step n) s ops = some s' ∧
      Refines s.registry.listeners s' (ops.foldl Registered.step ⟨[], s.cr3⟩) ∧
      (∀ name, ∃ k, Naul.checkListener k name s'.registry =
        some ((ops.foldl Registered.step ⟨[], s.cr3⟩).registrations.any (Named name))) ∧
      ∀ name r, (ops.foldl Registered.step ⟨[], s.cr3⟩).registrations.find? (Named name) = some r →
        ∀ call arguments, ∃ k, s'.sendMessage k call name arguments =
          some ((call r.2.handler arguments { s' with cr3 := r.2.paging }).1,
            { (call r.2.handler arguments { s' with cr3 := r.2.paging }).2 with cr3 := s'.cr3 }) := by
  have hstart : Refines s.registry.listeners s ⟨[], s.cr3⟩ :=
    ⟨rfl, h0, fun r hr => absurd hr List.not_mem_nil, rfl⟩
  obtain ⟨n, s', hrun, hrefines⟩ :=
    Trace.run_simulates step_mono (fun s a op => refines_step) hstart hC
  exact ⟨n, s', hrun, hrefines, hrefines.checkListener, fun name r hr => hrefines.sendMessage hr⟩

/-- No listeners, in the process with the tables at 1. -/
def noListeners : Ipc := ⟨⟨0, emptyRing UInt64, fun _ => ⟨Filesystem.folderName, 0, 0⟩⟩, 1⟩

/-- Two processes register handlers under the same name, and the first takes its own out. -/
def twoProcesses : List Op :=
  [.registerListener 8 7 Filesystem.folderName, .resume 2, .registerListener 9 6 Filesystem.folderName,
    .resume 1, .unregisterListener 7]

/-- A message goes to the other's handler, under the other's tables. -/
theorem ipc_routes_twoProcesses :
    ∃ n s', Trace.run (step n) noListeners twoProcesses = some s' ∧
      ∃ k, s'.sendMessage k (fun handler _ s => (handler + s.cr3, s)) Filesystem.folderName
        ⟨0, 0, 0, 0⟩ = some (6 + 2, s') := by
  have hC : Trace.Along (fun a op => some (Registered.step a op))
      (Registered.Proper noListeners.registry.listeners) ⟨[], noListeners.cr3⟩ twoProcesses := by decide
  have hfirst : (twoProcesses.foldl Registered.step ⟨[], noListeners.cr3⟩).registrations.find?
      (Named Filesystem.folderName) = some (9, ⟨Filesystem.folderName, 2, 6⟩) := rfl
  obtain ⟨n, s', hrun, -, -, hsend⟩ := ipc_routes (isRing_emptyRing _) hC
  exact ⟨n, s', hrun, hsend _ _ hfirst _ _⟩

end Ipc

end Naul
