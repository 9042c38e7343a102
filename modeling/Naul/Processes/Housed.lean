import Naul.Processes

/-!
# The address space of a live thread

`Housed` says that the tables in `cr3`, of the thread that runs and of every other thread of the ring,
and the program they map, are present records of the allocator. Everything but `quit` keeps this, in
any order, as long as nothing is given back at an address at which another present record starts:
tables and programs are the processes' own, and only `quit` gives them back. The first `unallocate`
of `quit` ends it, while the thread that quits still runs on its tables (`housed_iff`).
-/

namespace Naul

namespace Processes

variable {k k' : Processes} {t n fuel : ℕ} {o : Holder} {a c value : UInt64} {d : Doing}

/-- The tables at `c` are the kernel's, or a process has them and the program they map. -/
def Mapped (k : Processes) (c : UInt64) : Prop :=
  c = k.mainTable ∨ k.allocator.Holds .process c ∧ k.allocator.Holds .process (k.image c)

/-- The blocks that thread `t` has in hand at the place `d`. -/
def Ready (k : Processes) (t : ℕ) : Doing → Prop
  | .idle | .program _ => True
  | .symbolsFile _ program => k.allocator.Holds .process program
  | .symbols _ program symbolsFile | .freeSymbolsFile _ program symbolsFile _ =>
    k.allocator.Holds .process program ∧ k.allocator.Holds (.symbolsFile t) symbolsFile
  | .table _ program _ => k.allocator.Holds .process program
  | .load table _ => k.Mapped table
  | .record saved => ∀ s ∈ saved, k.Mapped s.table
  | .stack record saved =>
    k.allocator.Holds (.newRecord t) record ∧ ∀ s ∈ saved, k.Mapped s.table
  | .link record stack saved =>
    k.allocator.Holds (.newRecord t) record ∧ k.allocator.Holds (.newStack t) stack ∧
      ∀ s ∈ saved, k.Mapped s.table
  | .restore saved => k.Mapped saved.table
  | .quitProgram => k.cr3 t ≠ k.mainTable
  | .quitTable | .quitSymbols | .exitThread => False

structure Inv (k : Processes) : Prop where
  conserved : ∃ place, Scheduler.Conserved k.scheduler place
  rooted : Scheduler.Rooted k.scheduler.core
  counted : Allocator.Counted k.allocator.table
  stacked : ∀ t < k.scheduler.created, t ≠ 0 → t ∉ k.scheduler.freedStacks →
    k.allocator.Holds (.stack t) (k.stack t)
  recorded : ∀ t < k.scheduler.created, t ≠ 0 → t ∉ k.scheduler.freedRecords →
    k.allocator.Holds (.record t) (k.record t)
  cr3 : ∀ t ∈ k.scheduler.ring, k.Mapped (k.cr3 t)
  doing : ∀ t ∈ k.scheduler.ring, k.Ready t (k.doing t)

theorem Inv.runs (h : k.Inv) : Scheduler.Runs k.scheduler := h.conserved.elim fun _ hc => hc.runs

theorem Inv.ready (h : k.Inv) : k.Ready k.current (k.doing k.current) := h.doing _ h.runs.mem

/-! ### What other threads have -/

/-- What thread `t` holds in its local variables at a place, besides the program. -/
def Doing.blocks (t : ℕ) : Doing → List Holder
  | .symbols .. | .freeSymbolsFile .. => [.symbolsFile t]
  | .stack .. => [.newRecord t]
  | .link .. => [.newRecord t, .newStack t]
  | _ => []

/-- The holders that somebody still relies on. -/
def Needs (k : Processes) (o : Holder) : Prop :=
  match o with
  | .client => False
  | .stack t => t ∉ k.scheduler.freedStacks
  | .record t => t ∉ k.scheduler.freedRecords
  | .newStack t | .newRecord t | .symbolsFile t => o ∈ (k.doing t).blocks t
  | .process => True

theorem needs_of_mem (h : o ∈ (k.doing t).blocks t) : k.Needs o := by
  have ho : o = .symbolsFile t ∨ o = .newRecord t ∨ o = .newStack t := by
    unfold Doing.blocks at h
    split at h <;> simp_all
  rcases ho with rfl | rfl | rfl <;> exact h

theorem Mapped.mono (h : k.Mapped c) {m : Holdings Holder} {image : UInt64 → UInt64}
    (hkeeps : ∀ a, k.allocator.Holds .process a → m.Holds .process a)
    (himage : image c = k.image c ∨ m.Holds .process (image c)) :
    Mapped { k with allocator := m, image } c := by
  rcases h with hmain | ⟨htable, hprogram⟩
  · exact Or.inl hmain
  · refine Or.inr ⟨hkeeps c htable, ?_⟩
    rcases himage with heq | hnew
    · show m.Holds .process (image c)
      rw [heq]
      exact hkeeps _ hprogram
    · exact hnew

theorem Ready.mono (h : k.Ready t (k.doing t))
    (hkeeps : ∀ o a, k.Needs o → k.allocator.Holds o a → k'.allocator.Holds o a)
    (hmapped : ∀ c, k.Mapped c → k'.Mapped c)
    (hcr3 : k.cr3 t ≠ k.mainTable → k'.cr3 t ≠ k'.mainTable) : k'.Ready t (k.doing t) := by
  have hprocess := fun a => hkeeps .process a trivial
  have hblocks : ∀ o ∈ (k.doing t).blocks t, ∀ a, k.allocator.Holds o a → k'.allocator.Holds o a :=
    fun o ho a => hkeeps o a (needs_of_mem ho)
  cases hd : k.doing t <;> rw [hd] at h hblocks
  case idle | program => trivial
  case symbolsFile file program => exact hprocess _ h
  case symbols file program symbolsFile =>
    exact ⟨hprocess _ h.1, hblocks _ (by simp [Doing.blocks]) _ h.2⟩
  case freeSymbolsFile file program symbolsFile oldSymbols =>
    exact ⟨hprocess _ h.1, hblocks _ (by simp [Doing.blocks]) _ h.2⟩
  case table file program oldSymbols => exact hprocess _ h
  case load table oldSymbols => exact hmapped _ h
  case record saved => exact fun s hs => hmapped _ (h s hs)
  case stack record saved =>
    exact ⟨hblocks _ (by simp [Doing.blocks]) _ h.1, fun s hs => hmapped _ (h.2 s hs)⟩
  case link record stack saved =>
    exact ⟨hblocks _ (by simp [Doing.blocks]) _ h.1, hblocks _ (by simp [Doing.blocks]) _ h.2.1,
      fun s hs => hmapped _ (h.2.2 s hs)⟩
  case restore saved => exact hmapped _ h
  case quitProgram => exact hcr3 h
  case quitTable | quitSymbols | exitThread => exact h.elim

/-! ### Changes of one part -/

theorem Inv.allocator (h : k.Inv) {m : Holdings Holder} (hcounted : Allocator.Counted m.table)
    (hkeeps : ∀ o a, k.Needs o → k.allocator.Holds o a → m.Holds o a) :
    Inv { k with allocator := m } := by
  have hmapped : ∀ c, k.Mapped c → Mapped { k with allocator := m } c := fun c hc =>
    hc.mono (fun a => hkeeps .process a trivial) (Or.inl rfl)
  refine ⟨h.conserved, h.rooted, hcounted, fun t ht h0 hf => ?_, fun t ht h0 hf => ?_, fun t ht => ?_,
    fun t ht => ?_⟩
  · exact hkeeps _ _ hf (h.stacked t ht h0 hf)
  · exact hkeeps _ _ hf (h.recorded t ht h0 hf)
  · exact hmapped _ (h.cr3 t ht)
  · exact (h.doing t ht).mono hkeeps hmapped id

@[simp] theorem goto_doing : (k.goto d).doing (k.goto d).current = d := Function.update_self ..

theorem Inv.goto (h : k.Inv) (hready : k.Ready k.current d) : (k.goto d).Inv := by
  refine ⟨h.conserved, h.rooted, h.counted, h.stacked, h.recorded, h.cr3, fun t ht => ?_⟩
  show k.Ready t (Function.update k.doing k.current d t)
  by_cases htc : t = k.current
  · rw [htc, Function.update_self]
    exact hready
  · rw [Function.update_of_ne htc]
    exact h.doing t ht

/-- New tables, for a program that a process has. -/
theorem Inv.image (h : k.Inv) {program : UInt64} (hprogram : k.allocator.Holds .process program)
    (table : UInt64) : Inv { k with image := Function.update k.image table program } := by
  have hmapped : ∀ c, k.Mapped c →
      Mapped { k with image := Function.update k.image table program } c := by
    intro c hc
    refine hc.mono (fun _ => id) ?_
    by_cases hct : c = table
    · rw [hct, Function.update_self]
      exact Or.inr hprogram
    · exact Or.inl (Function.update_of_ne hct ..)
  exact ⟨h.conserved, h.rooted, h.counted, h.stacked, h.recorded, fun t ht => hmapped _ (h.cr3 t ht),
    fun t ht => (h.doing t ht).mono (fun _ _ _ => id) hmapped id⟩

theorem Inv.setCr3 (h : k.Inv) (hc : k.Mapped c) (hd : k.doing k.current ≠ .quitProgram) :
    (k.setCr3 c).Inv := by
  refine ⟨h.conserved, h.rooted, h.counted, h.stacked, h.recorded, fun t ht => ?_, fun t ht => ?_⟩
  · show k.Mapped (Function.update k.cr3 k.current c t)
    by_cases htc : t = k.current
    · rw [htc, Function.update_self]
      exact hc
    · rw [Function.update_of_ne htc]
      exact h.cr3 t ht
  · by_cases htc : t = k.current
    · have hready := h.doing t ht
      have hd' : k.doing t ≠ .quitProgram := htc ▸ hd
      show (k.setCr3 c).Ready t (k.doing t)
      cases hdt : k.doing t <;> rw [hdt] at hready
      case quitProgram => exact absurd hdt hd'
      all_goals exact hready
    · refine (h.doing t ht).mono (fun _ _ _ => id) (fun _ => id) fun hne => ?_
      show Function.update k.cr3 k.current c t ≠ k.mainTable
      rwa [Function.update_of_ne htc]

theorem Inv.setSymbols (h : k.Inv) (symbols : UInt64) : (k.setSymbols symbols).Inv :=
  ⟨h.conserved, h.rooted, h.counted, h.stacked, h.recorded, h.cr3, h.doing⟩

/-- An allocation. -/
theorem Inv.reserve (h : k.Inv) {amount : UInt64} {p : Allocator.Placement} {m : Holdings Holder}
    (hres : k.allocator.reserve fuel o amount p = some (value, m)) :
    Inv { k with allocator := m } ∧ m.Holds o value ∧
      ∀ o a, k.allocator.Holds o a → m.Holds o a := by
  obtain ⟨hcounted, hvalue, hkeeps⟩ := Holdings.reserve_holds h.counted hres
  exact ⟨h.allocator hcounted fun o a _ => hkeeps o a, hvalue, hkeeps⟩

/-- The current thread goes on with the address. -/
theorem Inv.allocate (h : k.Inv) {amount : UInt64} {d : UInt64 → Doing}
    (hstep : k.allocate fuel o amount d = some k')
    (hd : ∀ m value, m.Holds o value → (∀ o a, k.allocator.Holds o a → m.Holds o a) →
      Ready { k with allocator := m } k.current (d value)) :
    k'.Inv := by
  simp only [Processes.allocate, bind, Option.bind_eq_some_iff, pure, Option.some.injEq] at hstep
  obtain ⟨⟨value, m⟩, hres, rfl⟩ := hstep
  obtain ⟨hinv, hvalue, hkeeps⟩ := h.reserve hres
  exact hinv.goto (hd m value hvalue hkeeps)

theorem Inv.allocateAligned (h : k.Inv) {amount alignment : UInt64} {d : UInt64 → Doing}
    (hstep : k.allocateAligned fuel o amount alignment d = some k')
    (hd : ∀ m value, m.Holds o value → (∀ o a, k.allocator.Holds o a → m.Holds o a) →
      Ready { k with allocator := m } k.current (d value)) :
    k'.Inv := by
  simp only [Processes.allocateAligned, bind, Option.bind_eq_some_iff, pure, Option.some.injEq]
    at hstep
  obtain ⟨⟨value, m⟩, hres, rfl⟩ := hstep
  obtain ⟨hinv, hvalue, hkeeps⟩ := h.reserve hres
  exact hinv.goto (hd m value hvalue hkeeps)

/-- `unallocate`, of the block of a holder that nobody relies on. -/
theorem Inv.unallocate (h : k.Inv) (ho : k.allocator.Holds o a) (hneeds : ¬ k.Needs o)
    (hsole : k.allocator.Sole a) (hstep : k.unallocate fuel a = some k') : k'.Inv := by
  simp only [Processes.unallocate, bind, Option.bind_eq_some_iff, pure, Option.some.injEq] at hstep
  obtain ⟨m, hfree, rfl⟩ := hstep
  obtain ⟨hcounted, -, hkeeps⟩ := Holdings.unallocate_holds h.counted ho hsole hfree
  refine h.allocator hcounted fun o' b hneeds' => hkeeps o' b ?_
  rintro rfl
  exact hneeds hneeds'

theorem Holder.link_eq (hneeds : k.Needs o) (hd : (k.doing t).blocks t = []) :
    Holder.link t n o = o := by
  have hne : ∀ u, o ∈ (k.doing u).blocks u → u ≠ t := by
    rintro u hu rfl
    rw [hd] at hu
    cases hu
  cases o with
  | newStack u => exact if_neg (hne u hneeds)
  | newRecord u => exact if_neg (hne u hneeds)
  | _ => rfl

/-- The record of a new thread, which is not linked yet. -/
theorem Inv.start (h : k.Inv) (hd : (k.doing k.current).blocks k.current = [])
    (record stack : UInt64) : (k.start k.scheduler.created record stack).Inv := by
  have hnew : ∀ t, t < k.scheduler.created ∨ t ∈ k.scheduler.ring → t ≠ k.scheduler.created := by
    rintro t (ht | ht)
    · exact ht.ne
    · exact (h.runs.created t ht).ne
  have hkeeps : ∀ o a, k.Needs o → k.allocator.Holds o a →
      (k.allocator.rename (Holder.link k.current k.scheduler.created)).Holds o a := by
    intro o a hneeds ho
    have hrenamed := ho.rename (Holder.link k.current k.scheduler.created)
    rwa [Holder.link_eq hneeds hd] at hrenamed
  have hall := h.allocator (m := k.allocator.rename (Holder.link k.current k.scheduler.created))
    h.counted hkeeps
  refine ⟨hall.conserved, hall.rooted, hall.counted, fun t ht h0 hf => ?_, fun t ht h0 hf => ?_,
    fun t ht => ?_, fun t ht => ?_⟩
  · show Holdings.Holds _ (Holder.stack t) (Function.update k.stack k.scheduler.created stack t)
    rw [Function.update_of_ne (hnew t (Or.inl ht))]
    exact hall.stacked t ht h0 hf
  · show Holdings.Holds _ (Holder.record t) (Function.update k.record k.scheduler.created record t)
    rw [Function.update_of_ne (hnew t (Or.inl ht))]
    exact hall.recorded t ht h0 hf
  · show Mapped _ (Function.update k.cr3 k.scheduler.created (k.cr3 k.current) t)
    rw [Function.update_of_ne (hnew t (Or.inr ht))]
    exact hall.cr3 t ht
  · show Ready _ t (Function.update k.doing k.scheduler.created .idle t)
    rw [Function.update_of_ne (hnew t (Or.inr ht))]
    refine (hall.doing t ht).mono (fun _ _ _ => id) (fun _ => id) fun hne => ?_
    show Function.update k.cr3 k.scheduler.created (k.cr3 k.current) t ≠ k.mainTable
    rwa [Function.update_of_ne (hnew t (Or.inr ht))]

/-- A step of the scheduler. A thread that comes into the ring has its blocks. -/
theorem Inv.schedule (h : k.Inv) {e : Scheduler.Event} (hC : Scheduler.Targets k.scheduler e)
    (hnew : e = .call .createThread →
      k.allocator.Holds (.stack k.scheduler.created) (k.stack k.scheduler.created) ∧
        k.allocator.Holds (.record k.scheduler.created) (k.record k.scheduler.created) ∧
        k.Mapped (k.cr3 k.scheduler.created) ∧ k.doing k.scheduler.created = .idle)
    (hstep : k.schedule e = some k') : k'.Inv := by
  simp only [Processes.schedule, bind, Option.bind_eq_some_iff, pure, Option.some.injEq] at hstep
  obtain ⟨s, hs, rfl⟩ := hstep
  obtain ⟨place, hc⟩ := h.conserved
  have hturn := Scheduler.turn_step hs
  refine ⟨?_, Scheduler.rooted_step h.rooted hc.runs hs, h.counted, fun t ht h0 hf => ?_,
    fun t ht h0 hf => ?_, fun t ht => ?_, fun t ht => ?_⟩
  · obtain ⟨place', hc', -⟩ := Scheduler.conserved_step hc hC hs
    exact ⟨place', hc'⟩
  · rcases hturn.born ht with ht | ⟨he, rfl⟩
    · exact h.stacked t ht h0 fun hmem => hf (hturn.freed.1 hmem)
    · exact (hnew he).1
  · rcases hturn.born ht with ht | ⟨he, rfl⟩
    · exact h.recorded t ht h0 fun hmem => hf (hturn.freed.2 hmem)
    · exact (hnew he).2.1
  · rcases hturn.comes ht with ht | ⟨he, rfl⟩
    · exact h.cr3 t ht
    · exact (hnew he).2.2.1
  · rcases hturn.comes ht with ht | ⟨he, rfl⟩
    · exact h.doing t ht
    · show k.Ready k.scheduler.created (k.doing k.scheduler.created)
      rw [(hnew he).2.2.2]
      trivial

/-- A thread that `destroyThread` or `cleaner` has in hand is not the kernel's, and has what is not
given back. -/
theorem Inv.in_hand (h : k.Inv) (hr : (k.scheduler.pc k.current).taken = some t) :
    k.allocator.Holds (.record t) (k.record t) ∧
      ((k.scheduler.pc k.current).stackless = none → k.allocator.Holds (.stack t) (k.stack t)) := by
  obtain ⟨place, hc⟩ := h.conserved
  obtain ⟨hcreated, hring, hrecords, hwhole⟩ := hc.placed.in_hand hr
  have h0 : t ≠ 0 := by
    rintro rfl
    exact hring h.rooted.mem
  exact ⟨h.recorded t hcreated h0 hrecords, fun hs => h.stacked t hcreated h0 (hwhole hs)⟩

/-- What is released is held, and after the step nobody relies on it. -/
theorem Inv.released (h : k.Inv) {s : Scheduler} (hpointer : k.released = some a)
    (hs : k.scheduler.step .advance = some s) :
    ∃ o, k.allocator.Holds o a ∧ ¬ Needs { k with scheduler := s } o := by
  have hs' : k.scheduler.advance = some s := hs
  unfold Scheduler.advance at hs'
  unfold Processes.released at hpointer
  split at hpointer <;> rename_i hpc <;> try cases hpointer
  all_goals
    rename_i u
    have hpc' : k.scheduler.pc k.scheduler.currentThread = _ := hpc
    obtain ⟨hrecord, hstack⟩ := h.in_hand (t := u) (by rw [hpc]; rfl)
    rw [hpc'] at hs'
    obtain rfl := Option.some.inj hs'
  · exact ⟨_, hstack (by rw [hpc]; rfl), fun hneeds => hneeds List.mem_cons_self⟩
  · exact ⟨_, hstack (by rw [hpc]; rfl), fun hneeds => hneeds List.mem_cons_self⟩
  · exact ⟨_, hrecord, fun hneeds => hneeds List.mem_cons_self⟩
  · exact ⟨_, hrecord, fun hneeds => hneeds List.mem_cons_self⟩

section Start

variable (n : ℕ) (record stack : UInt64) (k : Processes)

@[simp] theorem start_stack : (k.start n record stack).stack n = stack := Function.update_self ..

@[simp] theorem start_record : (k.start n record stack).record n = record := Function.update_self ..

@[simp] theorem start_cr3 : (k.start n record stack).cr3 n = k.cr3 k.current :=
  Function.update_self ..

end Start

/-- The new thread has its stack, its record, and the tables of the thread that creates it. -/
theorem Inv.start_holds (h : k.Inv) {record stack : UInt64}
    (hrecord : k.allocator.Holds (.newRecord k.current) record)
    (hstack : k.allocator.Holds (.newStack k.current) stack) (n : ℕ) :
    (k.start n record stack).allocator.Holds (.stack n) ((k.start n record stack).stack n) ∧
      (k.start n record stack).allocator.Holds (.record n) ((k.start n record stack).record n) ∧
      (k.start n record stack).Mapped ((k.start n record stack).cr3 n) ∧
      (k.start n record stack).doing n = .idle := by
  have hrecord' := hrecord.rename (Holder.link k.current n)
  have hstack' := hstack.rename (Holder.link k.current n)
  rw [show Holder.link k.current n (.newRecord k.current) = .record n from if_pos rfl] at hrecord'
  rw [show Holder.link k.current n (.newStack k.current) = .stack n from if_pos rfl] at hstack'
  refine ⟨?_, ?_, ?_, Function.update_self ..⟩
  · rw [start_stack]
    exact hstack'
  · rw [start_record]
    exact hrecord'
  · rw [start_cr3]
    exact (h.cr3 _ h.runs.mem).mono (fun a ha => ha.rename (Holder.link k.current n)) (Or.inl rfl)

/-! ### Steps -/

/-- What a step passes to `unallocate`. -/
def freed (k : Processes) : Event → Option UInt64
  | .schedule .advance => k.released
  | .unallocate pointer => some pointer
  | .advance =>
    match k.doing k.current with
    | .freeSymbolsFile _ _ symbolsFile _ => some symbolsFile
    | .quitProgram => some (k.image (k.cr3 k.current))
    | .quitTable => some (k.cr3 k.current)
    | .quitSymbols => if k.symbols k.current ≠ 0 then some (k.symbols k.current) else none
    | _ => none
  | _ => none

/-- What is given back is at an address at which no other present record starts; `quit` is called in
a process, and `destroyThread` for another thread. -/
def Proper (k : Processes) (e : Event) : Prop :=
  (∀ a ∈ k.freed e, k.allocator.Sole a) ∧
    match e with
    | .schedule e => Scheduler.Targets k.scheduler e
    | .quit => k.cr3 k.current ≠ k.mainTable
    | _ => True

instance decidableProper (k : Processes) (e : Event) : Decidable (k.Proper e) :=
  have := Option.decidableForallMem (p := k.allocator.Sole) (k.freed e)
  match e with
  | .schedule e => inferInstanceAs (Decidable (_ ∧ Scheduler.Targets k.scheduler e))
  | .quit => inferInstanceAs (Decidable (_ ∧ k.cr3 k.current ≠ k.mainTable))
  | .allocate _ | .allocateAligned .. | .unallocate _ | .execute _ | .createThread | .advance =>
    inferInstanceAs (Decidable (_ ∧ True))

/-- The first `unallocate` of `quit`. -/
def Quits (k : Processes) (e : Event) : Prop := e = .advance ∧ k.doing k.current = .quitProgram

instance decidableQuits (k : Processes) (e : Event) : Decidable (k.Quits e) :=
  inferInstanceAs (Decidable (_ ∧ _))

theorem inv_advance (h : k.Inv) (hC : k.Proper .advance) (hD : ¬ k.Quits .advance)
    (hstep : k.advance fuel = some k') : k'.Inv := by
  have hready := h.ready
  have hsole := hC.1
  unfold freed at hsole
  unfold advance at hstep
  dsimp only at hstep
  -- one case for each place of `execute`, `createThread` and `quit`; `Ready` says what is held there
  cases hd : k.doing k.current <;> rw [hd] at hready hsole hstep
  case idle => cases hstep
  case program file => exact h.allocateAligned hstep fun m value hvalue _ => hvalue
  case symbolsFile file program =>
    exact h.allocate hstep fun m value hvalue hkeeps => ⟨hkeeps _ _ hready, hvalue⟩
  case symbols file program symbolsFile =>
    dsimp only at hstep
    cases hsymbols : file.symbols with
    | none =>
      rw [hsymbols] at hstep
      obtain rfl := Option.some.inj hstep
      have hgoto := h.goto (d := .freeSymbolsFile file program symbolsFile (k.symbols k.current)) hready
      exact hgoto.setSymbols 0
    | some size =>
      simp only [hsymbols, bind, Option.bind_eq_some_iff, pure, Option.some.injEq] at hstep
      obtain ⟨⟨symbols, m⟩, hres, rfl⟩ := hstep
      obtain ⟨hinv, -, hkeeps⟩ := h.reserve hres
      have hgoto := hinv.goto (d := .freeSymbolsFile file program symbolsFile (k.symbols k.current))
        ⟨hkeeps _ _ hready.1, hkeeps _ _ hready.2⟩
      exact hgoto.setSymbols symbols
  case freeSymbolsFile file program symbolsFile oldSymbols =>
    have hgoto := h.goto (d := .table file program oldSymbols) hready.1
    refine hgoto.unallocate hready.2 ?_ (hsole _ rfl) hstep
    unfold Needs
    dsimp only
    rw [show (k.goto (.table file program oldSymbols)).doing k.current = _ from goto_doing]
    exact List.not_mem_nil
  case table file program oldSymbols =>
    simp only [bind, Option.bind_eq_some_iff, pure, Option.some.injEq] at hstep
    obtain ⟨⟨table, m⟩, hres, rfl⟩ := hstep
    obtain ⟨hinv, htable, hkeeps⟩ := h.reserve hres
    have hprogram : m.Holds .process program := hkeeps _ _ hready
    -- the tables map the program from here on, so that they stand for its block
    refine (hinv.image hprogram table).goto (Or.inr ⟨htable, ?_⟩)
    show m.Holds .process (Function.update k.image table program table)
    rwa [Function.update_self]
  case load table oldSymbols =>
    obtain rfl := Option.some.inj hstep
    have hgoto : (k.goto (.record (some ⟨k.cr3 k.current, oldSymbols⟩))).Inv := by
      refine h.goto fun s hs => ?_
      obtain rfl := Option.some.inj hs
      exact h.cr3 _ h.runs.mem
    exact hgoto.setCr3 hready (by rw [goto_doing]; exact Doing.noConfusion)
  case record saved =>
    refine h.allocate hstep fun m value hvalue hkeeps => ⟨hvalue, fun s hs => ?_⟩
    exact (hready s hs).mono (hkeeps _) (Or.inl rfl)
  case stack record saved =>
    refine h.allocateAligned hstep fun m value hvalue hkeeps =>
      ⟨hkeeps _ _ hready.1, hvalue, fun s hs => ?_⟩
    exact (hready.2 s hs).mono (hkeeps _) (Or.inl rfl)
  case link record stack saved =>
    obtain ⟨hrecord, hstack, hsaved⟩ := hready
    have hafter : k.Ready k.current (.after saved) := by
      cases saved with
      | none => trivial
      | some s => exact hsaved s rfl
    have hgoto := h.goto hafter
    have hstart := hgoto.start (by rw [goto_doing]; cases saved <;> rfl) record stack
    exact hstart.schedule (e := .call .createThread) trivial
      (fun _ => hgoto.start_holds hrecord hstack _) hstep
  case restore saved =>
    obtain rfl := Option.some.inj hstep
    have hgoto : (k.goto .idle).Inv := h.goto trivial
    exact (hgoto.setCr3 hready (by rw [goto_doing]; exact Doing.noConfusion)).setSymbols _
  case quitProgram => exact absurd ⟨rfl, hd⟩ hD
  -- `quit` is not entered in such a run, so no thread is further on in it
  case quitTable | quitSymbols | exitThread => exact hready.elim

theorem inv_step {e : Event} (h : k.Inv) (hC : k.Proper e) (hD : ¬ k.Quits e)
    (hstep : k.step fuel e = some k') : k'.Inv := by
  cases e with
  | schedule e =>
    have hold : e ≠ .call .createThread → k.schedule e = some k' → k'.Inv := fun hne =>
      h.schedule hC.2 fun he => absurd he hne
    cases e with
    | preempt => exact hold (by simp) hstep
    | hpet value => exact hold (by simp) hstep
    | advance =>
      simp only [step] at hstep
      split_ifs at hstep
      -- the step may be one that ends with a call of `unallocate`, for a stack or a record
      cases hpointer : k.released with
      | none =>
        rw [hpointer] at hstep
        exact hold (by simp) hstep
      | some a =>
        simp only [hpointer, Option.bind_eq_some_iff, Processes.unallocate, Processes.schedule, bind,
          pure, Option.some.injEq] at hstep
        obtain ⟨k₁, ⟨m, hfree, rfl⟩, s, hs, rfl⟩ := hstep
        obtain ⟨o, ho, hneeds⟩ := h.released hpointer hs
        -- nothing in the scheduler depends on the allocator, so its step may be taken first
        have hschedule : k.schedule .advance = some { k with scheduler := s } := by
          simp only [Processes.schedule, bind, pure, Option.bind_eq_some_iff]
          exact ⟨s, hs, rfl⟩
        have hfree' : Processes.unallocate fuel a { k with scheduler := s } =
            some { k with allocator := m, scheduler := s } := by
          simp only [Processes.unallocate, bind, pure, Option.bind_eq_some_iff]
          exact ⟨m, hfree, rfl⟩
        have hscheduled := h.schedule hC.2 (fun he => by cases he) hschedule
        exact hscheduled.unallocate ho hneeds (hC.1 a hpointer) hfree'
    | call c =>
      cases c <;> simp only [step] at hstep
      case createThread => cases hstep
      all_goals
        split_ifs at hstep
        exact hold (by simp) hstep
  | allocate amount =>
    simp only [step] at hstep
    split_ifs at hstep
    exact h.allocate hstep fun _ _ _ _ => trivial
  | allocateAligned amount alignment =>
    simp only [step] at hstep
    split_ifs at hstep
    exact h.allocateAligned hstep fun _ _ _ _ => trivial
  | unallocate pointer =>
    simp only [step] at hstep
    split_ifs at hstep with hclient
    exact h.unallocate hclient.2 id (hC.1 pointer rfl) hstep
  | execute file =>
    simp only [step] at hstep
    split_ifs at hstep
    obtain rfl := Option.some.inj hstep
    exact h.goto trivial
  | createThread =>
    simp only [step] at hstep
    split_ifs at hstep
    obtain rfl := Option.some.inj hstep
    exact h.goto fun s hs => by cases hs
  | quit =>
    simp only [step] at hstep
    split_ifs at hstep
    obtain rfl := Option.some.inj hstep
    exact h.goto hC.2
  | advance => exact inv_advance h hC hD hstep

/-! ### The guarantee -/

/-- The tables of the thread that runs and of each thread of the ring, and the program they map, are
present records, where they are not the kernel's. -/
def Housed (k : Processes) : Prop :=
  ∀ t, t = k.current ∨ t ∈ k.scheduler.ring → k.cr3 t = k.mainTable ∨
    k.allocator.table.Starts (k.cr3 t) ∧ k.allocator.table.Starts (k.image (k.cr3 t))

theorem Inv.housed (h : k.Inv) : k.Housed := by
  intro t ht
  have hmem : t ∈ k.scheduler.ring := ht.elim (fun heq => heq ▸ h.runs.mem) id
  exact (h.cr3 t hmem).imp_right fun ⟨htable, hprogram⟩ => ⟨htable.starts, hprogram.starts⟩

/-- After the first `unallocate` of `quit` the program of the thread that runs is not recorded. -/
theorem quit_unhouses {e : Event} (h : k.Inv) (hC : k.Proper e) (hquits : k.Quits e)
    (hstep : k.step fuel e = some k') : ¬ k'.Housed := by
  obtain ⟨rfl, hd⟩ := hquits
  have hready := h.ready
  have hfreed : k.freed .advance = some (k.image (k.cr3 k.current)) := by
    unfold freed
    rw [hd]
  rw [hd] at hready
  simp only [step, advance, hd, Processes.unallocate, bind, Option.bind_eq_some_iff, pure,
    Option.some.injEq] at hstep
  obtain ⟨m, hfree, rfl⟩ := hstep
  have hmain : k.cr3 k.current ≠ k.mainTable := hready
  obtain ⟨-, hprogram⟩ := (h.cr3 _ h.runs.mem).resolve_left hmain
  obtain ⟨-, hgone, -⟩ := Holdings.unallocate_holds h.counted hprogram (hC.1 _ hfreed) hfree
  intro hhoused
  rcases hhoused k.current (Or.inl rfl) with heq | ⟨-, hstarts⟩
  · exact hmain heq
  · exact hgone hstarts

/-- No thread is in one of the calls, the kernel's tables are in `cr3`, and the threads but the
kernel's have their stacks and their records. -/
structure Started (k : Processes) : Prop where
  scheduler : k.scheduler.Started
  rooted : Scheduler.Rooted k.scheduler.core
  counted : Allocator.Counted k.allocator.table
  stacked : ∀ t < k.scheduler.created, t ≠ 0 → k.allocator.Holds (.stack t) (k.stack t)
  recorded : ∀ t < k.scheduler.created, t ≠ 0 → k.allocator.Holds (.record t) (k.record t)
  cr3 : ∀ t, k.cr3 t = k.mainTable
  doing : ∀ t, k.doing t = .idle

theorem Started.inv (h : k.Started) : k.Inv where
  conserved := ⟨_, h.scheduler.conserved⟩
  rooted := h.rooted
  counted := h.counted
  stacked := fun t ht h0 _ => h.stacked t ht h0
  recorded := fun t ht h0 _ => h.recorded t ht h0
  cr3 := fun t _ => Or.inl (h.cr3 t)
  doing := fun t _ => by
    rw [h.doing t]
    trivial

/-- **A live thread's address space stays allocated** throughout a run if and only if no process gets
as far as the first `unallocate` of `quit`. -/
theorem housed_iff {events : List Event} (hstart : k.Started)
    (hC : Trace.Along (step fuel) Proper k events) (hrun : Trace.run (step fuel) k events = some k') :
    (∀ before k₁, before <+: events → Trace.run (step fuel) k before = some k₁ → k₁.Housed) ↔
      Trace.Along (step fuel) (fun k e => ¬ k.Quits e) k events :=
  Trace.forall_prefix_iff_along (fun _ h => h.housed)
    (fun _ _ _ h hC hD hstep => inv_step h hC hD hstep)
    (fun _ _ _ h hC hD hstep => quit_unhouses h hC (not_not.1 hD) hstep) hstart.inv hC hrun

/-- After `initScheduler`: the record and the stack of the cleaner have been allocated. -/
def boot : Processes where
  scheduler := Scheduler.boot
  allocator := {
    table := {
      allocated := fun i => if i = 0 then ⟨true, 0x1000000, 0x1000048⟩
        else if i = 1 then ⟨true, 0x1000050, 0x1100050⟩ else ⟨false, 0, 0⟩
      allocations := 2
      unusable := 0
      written := 2 }
    holder := fun i => if i = 0 then some (.record 1) else if i = 1 then some (.stack 1) else none }
  mainTable := 0x2000
  image := fun _ => 0
  cr3 := fun _ => 0x2000
  stack := fun _ => 0x1000050
  record := fun _ => 0x1000000
  symbols := fun _ => 0
  doing := fun _ => .idle

theorem started_boot : boot.Started where
  scheduler := Scheduler.started_boot
  rooted := ⟨rfl, rfl, fun t => by
    show (Scheduler.boot.pc t).destroying ≠ some 0
    by_cases ht : t = 1
    · subst ht
      decide
    · rw [show Scheduler.boot.pc t = .running from if_neg ht]
      decide⟩
  counted := by
    show 2 = _
    decide
  stacked := by decide
  recorded := by decide
  cr3 := fun _ => rfl
  doing := fun _ => rfl

/-- The kernel's thread executes a program, whose thread creates another one. -/
def children : List Event :=
  .execute ⟨16, 8, none⟩ :: List.replicate 10 .advance ++
    [.schedule .preempt, .schedule .preempt, .createThread, .advance, .advance, .advance]

theorem housed_iff_children :
    ∃ k, Trace.run (step 20) boot children = some k ∧ k.scheduler.ring = [0, 1, 2, 3] ∧
      k.cr3 3 = 0x1101000 ∧ k.Housed := by
  have hC : Trace.Along (step 20) Proper boot children := by decide
  have hD : Trace.Along (step 20) (fun k e => ¬ k.Quits e) boot children := by decide
  obtain ⟨k, hrun, hring, hcr3⟩ : ∃ k, Trace.run (step 20) boot children = some k ∧
      k.scheduler.ring = [0, 1, 2, 3] ∧ k.cr3 3 = 0x1101000 := ⟨_, rfl, rfl, rfl⟩
  exact ⟨k, hrun, hring, hcr3,
    (housed_iff started_boot hC hrun).2 hD children k (List.prefix_refl _) hrun⟩

/-- Then the thread of the program quits: the thread it has created is left, and runs, on tables that
have been given back. -/
theorem child_runs_on_freed_tables :
    ∃ events k, Trace.Along (step 20) Proper boot events ∧
      Trace.run (step 20) boot events = some k ∧ k.current = 3 ∧ k.cr3 3 ≠ k.mainTable ∧
      ¬ k.allocator.table.Starts (k.cr3 3) := by
  refine ⟨children ++ .quit :: List.replicate 4 .advance ++ List.replicate 4 (.schedule .advance), _, ?_,
    rfl, rfl, ?_, ?_⟩
  · decide
  · decide
  · decide

end Processes

end Naul
