import Naul.Scheduler.Turn
import Naul.Scheduler.Ring

/-!
# Every thread is in one place

What becomes of a thread after `createThread` has linked it: it is in the ring, then perhaps on the
list of the dead, then in the hands of whoever took it out, the cleaner or a `destroyThread`, and at
last it is given back. Each step of the machine takes at most one thread one step further
(`placed_turn`), so that at every moment it is in one of the places, and what has been given back is
in none of them.

This needs that `destroyThread` never takes out the thread that runs it. Its id is that of another
thread when it is called; the ids of the ring stay distinct, so it never becomes the caller's own.
-/

namespace Naul

namespace Scheduler

/-! ### The places -/

/-- Where a thread is: `held r` in the hands of thread `r`. -/
inductive Place
  | unborn
  | ring
  | dead
  | held (r : ℕ)
  | freed
  deriving DecidableEq

/-- The way of a thread through the places. -/
inductive Place.Next : Place → Place → Prop
  | create : Next .unborn .ring
  | exit : Next .ring .dead
  | destroy (r : ℕ) : Next .ring (.held r)
  | take (r : ℕ) : Next .dead (.held r)
  | free (r : ℕ) : Next (.held r) .freed

/-- The lists and the places of the code have every thread where `place` says. -/
structure Placed (c : Core) (place : ℕ → Place) : Prop where
  unborn : ∀ t, place t = .unborn ↔ c.created ≤ t
  ring : ∀ t, place t = .ring ↔ t ∈ c.ring
  ringNodup : c.ring.Nodup
  dead : ∀ t, place t = .dead ↔ t ∈ c.deadThreads
  deadNodup : c.deadThreads.Nodup
  held : ∀ t r, place t = .held r ↔ (c.pc r).taken = some t
  freedStacks : ∀ t, t ∈ c.freedStacks ↔ place t = .freed ∨ ∃ r, (c.pc r).stackless = some t
  stacksNodup : c.freedStacks.Nodup
  freedRecords : ∀ t, place t = .freed ↔ t ∈ c.freedRecords
  recordsNodup : c.freedRecords.Nodup

variable {s s' u : Scheduler} {e : Event} {t : ℕ} {q : Pc} {b : Bool}

/-! ### The ids of the ring -/

/-- The ids of the ring are distinct, and no thread of the ring is going to search for its own. -/
structure Distinct (c : Core) : Prop where
  ids : ∀ t ∈ c.ring, ∀ u ∈ c.ring, c.id t = c.id u → t = u
  others : ∀ t ∈ c.ring, (c.pc t).destroying ≠ some (c.id t)

/-- `destroyThread` is called with the id of another thread of the ring. -/
def Targets (s : Scheduler) : Event → Prop
  | .call (.destroyThread id) => ∃ t ∈ s.ring, t ≠ s.currentThread ∧ s.id t = id
  | _ => True

instance decidableTargets (s : Scheduler) : ∀ e, Decidable (Targets s e)
  | .call (.destroyThread id) =>
    inferInstanceAs (Decidable (∃ t ∈ s.ring, t ≠ s.currentThread ∧ s.id t = id))
  | .preempt | .hpet _ | .advance | .call .createThread | .call (.waitForThread _)
  | .call (.waitFemtoseconds _) | .call (.cancelWait _) | .call .exitThread => isTrue trivial

theorem Distinct.mono {c : Core} (h : Distinct c) {ring deadThreads freedStacks freedRecords : List ℕ}
    (hring : ring ⊆ c.ring) (b : Bool) :
    Distinct { c with ring, deadThreads, waitingLock := b, freedStacks, freedRecords } :=
  ⟨fun t ht u hu => h.ids t (hring ht) u (hring hu), fun t ht => h.others t (hring ht)⟩

/-- The current thread goes to a place from where it searches for no id of its own. -/
theorem Distinct.go (h : Distinct s.core)
    (hq : s.currentThread ∈ s.ring → q.destroying ≠ some (s.id s.currentThread)) :
    Distinct { s.core with pc := Function.update s.pc s.currentThread q } := by
  refine ⟨h.ids, fun t ht => ?_⟩
  by_cases heq : t = s.currentThread
  · subst heq
    simp only [Function.update_self]
    exact hq ht
  · simp only [Function.update_of_ne heq]
    exact h.others t ht

theorem Distinct.go_none (h : Distinct s.core) (hq : q.destroying = none) :
    Distinct { s.core with pc := Function.update s.pc s.currentThread q } :=
  h.go fun _ hid => by rw [hq] at hid; cases hid

theorem distinct_turn (h : Distinct s.core) (hr : Runs s) (hC : Targets s e) {c : Core}
    (hturn : Turn s e c) : Distinct c := by
  cases hturn with
  | go q b guards taken stackless destroying =>
    refine (h.go fun hmem hid => ?_).mono (fun _ hmem => hmem) b
    rcases destroying _ hid with hold | hcall
    · exact h.others _ hmem hold
    · subst hcall
      obtain ⟨t, ht, hne, hidt⟩ := hC
      exact hne (h.ids t ht _ hmem hidt)
  | create event =>
    have hfree := (freeId_spec (s.ring.map s.id)).1
    rw [List.length_map] at hfree
    have hnew : ∀ t ∈ s.ring, t ≠ s.created := fun t ht => (hr.created t ht).ne
    constructor
    · intro t ht u hu hid
      simp only [List.mem_append, List.mem_singleton] at ht hu
      rcases ht with ht | rfl <;> rcases hu with hu | rfl
      · simp only [Function.update_of_ne (hnew t ht), Function.update_of_ne (hnew u hu)] at hid
        exact h.ids t ht u hu hid
      · simp only [Function.update_of_ne (hnew t ht), Function.update_self] at hid
        exact absurd (List.mem_map.2 ⟨t, ht, hid⟩) hfree
      · simp only [Function.update_of_ne (hnew u hu), Function.update_self] at hid
        exact absurd (List.mem_map.2 ⟨u, hu, hid.symm⟩) hfree
      · rfl
    · intro t ht
      simp only [List.mem_append, List.mem_singleton] at ht
      rcases ht with ht | rfl
      · simp only [Function.update_of_ne (hnew t ht)]
        exact h.others t ht
      · simp [Pc.destroying]
  | exit id event at_end => exact h.mono (fun _ => List.mem_of_mem_erase) _
  | destroy id t at_end found victim =>
    exact (h.go_none (q := .freeStack t) rfl).mono (fun _ => List.mem_of_mem_erase) _
  | take t ts q dead at_take taken stackless destroying =>
    exact (h.go_none destroying).mono (fun _ hmem => hmem) _
  | freeStack t q outside before whole taken stackless destroying =>
    exact (h.go_none destroying).mono (fun _ hmem => hmem) _
  | freeRecord t q outside before taken destroying =>
    exact (h.go_none destroying).mono (fun _ hmem => hmem) _

/-- The thread that `destroyThread` finds is another one. -/
theorem Distinct.other (h : Distinct s.core) (hmem : s.currentThread ∈ s.ring) {id : ℕ}
    (hdestroying : (s.pc s.currentThread).destroying = some id) (hfound : s.threadWithId id = some t) :
    t ≠ s.currentThread := by
  rintro rfl
  have hid : s.id s.currentThread = id := by simpa using List.find?_some hfound
  rw [← hid] at hdestroying
  exact h.others _ hmem hdestroying

theorem Distinct.spares (h : Distinct s.core) (hmem : s.currentThread ∈ s.ring) (e : Event) :
    s.victim e ≠ some s.currentThread := by
  intro hvictim
  unfold victim at hvictim
  split at hvictim
  · split at hvictim
    · rename_i id hpc
      exact h.other hmem (by rw [hpc]; rfl) hvictim rfl
    · cases hvictim
  · cases hvictim

/-! ### One step of one thread -/

section Placed

variable {c : Core} {place : ℕ → Place} {r : ℕ}

theorem Placed.held_of_stackless (h : Placed c place) (hr : (c.pc r).stackless = some t) :
    place t = .held r :=
  (h.held t r).2 (Pc.taken_of_stackless hr)

/-- What a thread that is not with the freed ones, nor half freed, has on the list of freed stacks. -/
theorem Placed.stack_notMem (h : Placed c place) (hplace : place t ≠ .freed)
    (hhalf : ∀ r, place t = .held r → (c.pc r).stackless = none) : t ∉ c.freedStacks := by
  intro ht
  rcases (h.freedStacks t).1 ht with hfreed | ⟨r, hr⟩
  · exact hplace hfreed
  · rw [hhalf r (h.held_of_stackless hr)] at hr
    cases hr

/-- A thread that somebody has in hand is out of the ring, and has not been given back. -/
theorem Placed.in_hand (h : Placed c place) (hr : (c.pc r).taken = some t) :
    t < c.created ∧ t ∉ c.ring ∧ t ∉ c.freedRecords ∧
      ((c.pc r).stackless = none → t ∉ c.freedStacks) := by
  have hplace : place t = .held r := (h.held t r).2 hr
  refine ⟨?_, fun hmem => ?_, fun hmem => ?_, fun hwhole => ?_⟩
  · by_contra hle
    rw [(h.unborn t).2 (not_lt.1 hle)] at hplace
    cases hplace
  · rw [(h.ring t).2 hmem] at hplace
    cases hplace
  · rw [(h.freedRecords t).2 hmem] at hplace
    cases hplace
  · refine h.stack_notMem (by rw [hplace]; exact Place.noConfusion) fun x hx => ?_
    rw [hplace, Place.held.injEq] at hx
    exact hx ▸ hwhole

/-- Thread `r` goes to a place where it has in hand what it had. -/
theorem Placed.go (h : Placed c place) (htaken : q.taken = (c.pc r).taken)
    (hstackless : q.stackless = (c.pc r).stackless) :
    Placed { c with pc := Function.update c.pc r q, waitingLock := b } place := by
  have htaken' : ∀ x, (Function.update c.pc r q x).taken = (c.pc x).taken := by
    intro x
    by_cases hx : x = r
    · rw [hx, Function.update_self, htaken]
    · rw [Function.update_of_ne hx]
  have hstackless' : ∀ x, (Function.update c.pc r q x).stackless = (c.pc x).stackless := by
    intro x
    by_cases hx : x = r
    · rw [hx, Function.update_self, hstackless]
    · rw [Function.update_of_ne hx]
  refine ⟨h.unborn, h.ring, h.ringNodup, h.dead, h.deadNodup, fun x y => ?_, fun x => ?_,
    h.stacksNodup, h.freedRecords, h.recordsNodup⟩
  · rw [htaken']
    exact h.held x y
  · simp only [hstackless']
    exact h.freedStacks x

theorem Placed.create (h : Placed c place) (id : ℕ → ℕ) :
    Place.Next (place c.created) .ring ∧
      Placed { c with ring := c.ring ++ [c.created], created := c.created + 1, id }
        (Function.update place c.created .ring) := by
  have hplace : place c.created = .unborn := (h.unborn c.created).2 le_rfl
  have hnew : c.created ∉ c.ring := by
    intro hmem
    rw [(h.ring _).2 hmem] at hplace
    cases hplace
  refine ⟨hplace ▸ .create, ?_⟩
  obtain ⟨hunborn, hring, hringNodup, hdead, hdeadNodup, hheld, hstacks, hstacksNodup, hrecords,
    hrecordsNodup⟩ := h
  constructor <;> simp only [Function.update_apply] <;> grind

theorem Placed.exit (h : Placed c place) (ht : t ∈ c.ring) :
    Place.Next (place t) .dead ∧
      Placed { c with ring := c.ring.erase t, deadThreads := c.deadThreads ++ [t] }
        (Function.update place t .dead) := by
  have hplace : place t = .ring := (h.ring t).2 ht
  have hnew : t ∉ c.deadThreads := by
    intro hmem
    rw [(h.dead t).2 hmem] at hplace
    cases hplace
  refine ⟨hplace ▸ .exit, ?_⟩
  obtain ⟨hunborn, hring, hringNodup, hdead, hdeadNodup, hheld, hstacks, hstacksNodup, hrecords,
    hrecordsNodup⟩ := h
  constructor <;> simp only [Function.update_apply] <;> grind

/-- Thread `r`, which has nothing in hand, takes `t` out of one of the lists. -/
theorem Placed.remove (h : Placed c place) (hlisted : place t = .ring ∨ place t = .dead)
    (hidle : (c.pc r).taken = none) (htaken : q.taken = some t) (hstackless : q.stackless = none) :
    Place.Next (place t) (.held r) ∧
      Placed { c with
        ring := c.ring.erase t
        deadThreads := c.deadThreads.erase t
        pc := Function.update c.pc r q } (Function.update place t (.held r)) := by
  have hnext : Place.Next (place t) (.held r) := by
    rcases hlisted with hplace | hplace
    · exact hplace ▸ .destroy r
    · exact hplace ▸ .take r
  have hfree : ∀ x, (c.pc x).taken ≠ some t := by
    intro x hx
    rw [← h.held] at hx
    rcases hlisted with hplace | hplace <;> rw [hplace] at hx <;> cases hx
  have hwhole : (c.pc r).stackless = none := Pc.stackless_eq_none hidle
  refine ⟨hnext, ?_⟩
  obtain ⟨hunborn, hring, hringNodup, hdead, hdeadNodup, hheld, hstacks, hstacksNodup, hrecords,
    hrecordsNodup⟩ := h
  constructor <;> simp only [Function.update_apply] <;> grind

/-- It gives back the stack. -/
theorem Placed.freeStack (h : Placed c place) (hbefore : (c.pc r).taken = some t)
    (hwhole : (c.pc r).stackless = none) (htaken : q.taken = some t) (hstackless : q.stackless = some t) :
    Placed { c with
      freedStacks := t :: c.freedStacks
      pc := Function.update c.pc r q } place := by
  have hplace : place t = .held r := (h.held t r).2 hbefore
  have hnew : t ∉ c.freedStacks := (h.in_hand hbefore).2.2.2 hwhole
  obtain ⟨hunborn, hring, hringNodup, hdead, hdeadNodup, hheld, hstacks, hstacksNodup, hrecords,
    hrecordsNodup⟩ := h
  constructor <;> simp only [Function.update_apply] <;> grind

/-- And the record. -/
theorem Placed.freeRecord (h : Placed c place) (hbefore : (c.pc r).stackless = some t)
    (htaken : q.taken = none) :
    Place.Next (place t) .freed ∧
      Placed { c with
        freedRecords := t :: c.freedRecords
        pc := Function.update c.pc r q } (Function.update place t .freed) := by
  have hplace : place t = .held r := h.held_of_stackless hbefore
  have hnew : t ∉ c.freedRecords := (h.in_hand (Pc.taken_of_stackless hbefore)).2.2.1
  have hnone : q.stackless = none := Pc.stackless_eq_none htaken
  have hhalf : ∀ x y, (c.pc x).stackless = some y → place y = .held x := fun x y =>
    h.held_of_stackless
  refine ⟨hplace ▸ .free r, ?_⟩
  obtain ⟨hunborn, hring, hringNodup, hdead, hdeadNodup, hheld, hstacks, hstacksNodup, hrecords,
    hrecordsNodup⟩ := h
  constructor <;> simp only [Function.update_apply] <;> grind

end Placed

/-- Threads move one at a time, and one step at a time. -/
def Advances (place place' : ℕ → Place) : Prop :=
  place' = place ∨ ∃ t p, Place.Next (place t) p ∧ place' = Function.update place t p

/-- **A step takes at most one thread one step further.** -/
theorem placed_turn {place : ℕ → Place} (h : Placed s.core place) (hinv : Inv s)
    (hmem : s.currentThread ∈ s.ring) {c : Core} (hturn : Turn s e c) :
    ∃ place', Placed c place' ∧ Advances place place' := by
  have hmoved : ∀ {t p}, Place.Next (place t) p ∧ Placed c (Function.update place t p) →
      ∃ place', Placed c place' ∧ Advances place place' := fun {t p} ⟨hnext, hplaced⟩ =>
    ⟨Function.update place t p, hplaced, Or.inr ⟨t, p, hnext, rfl⟩⟩
  cases hturn with
  | go q b guards taken stackless destroying => exact ⟨place, h.go taken stackless, Or.inl rfl⟩
  | create event =>
    have hpc : Function.update s.pc s.created .running = s.pc := by
      rw [← hinv.unborn s.created le_rfl, Function.update_eq_self]
    rw [hpc] at hmoved ⊢
    exact hmoved (h.create _)
  | exit id event at_end => exact hmoved (h.exit hmem)
  | destroy id t at_end found victim =>
    have ht : place t = .ring := (h.ring t).2 (List.mem_of_find?_eq_some found)
    have hidle : (s.pc s.currentThread).taken = none := by rw [at_end]; rfl
    have hdead : s.deadThreads.erase t = s.deadThreads := by
      refine List.erase_of_not_mem fun hmem => ?_
      rw [(h.dead t).2 hmem] at ht
      cases ht
    have hremoved := h.remove (q := .freeStack t) (Or.inl ht) hidle rfl rfl
    simp only [core, hdead] at hremoved
    exact hmoved hremoved
  | take t ts q dead at_take taken stackless destroying =>
    have ht : place t = .dead := (h.dead t).2 (by simp [core, dead])
    have hring : s.ring.erase t = s.ring := by
      refine List.erase_of_not_mem fun hmem => ?_
      rw [(h.ring t).2 hmem] at ht
      cases ht
    have hidle : (s.pc s.currentThread).taken = none := by rw [at_take]; rfl
    have hremoved := h.remove (Or.inr ht) hidle taken stackless
    simp only [core, hring, dead, List.erase_cons_head] at hremoved
    exact hmoved hremoved
  | freeStack t q outside before whole taken stackless destroying =>
    exact ⟨place, h.freeStack before whole taken stackless, Or.inl rfl⟩
  | freeRecord t q outside before taken destroying => exact hmoved (h.freeRecord before taken)

/-! ### Runs -/

/-- One remover has `t`: it has it in hand, alone, or it has given back all of it. -/
def TakenOut (s : Scheduler) (t : ℕ) : Prop :=
  (∃! r, (s.pc r).taken = some t) ∧ t ∉ s.freedRecords ∨
    (∀ r, (s.pc r).taken ≠ some t) ∧ t ∈ s.freedRecords

/-- Thread `t` is in exactly one of the three places. -/
def InOnePlace (s : Scheduler) (t : ℕ) : Prop :=
  t ∈ s.ring ∧ t ∉ s.deadThreads ∧ ¬ s.TakenOut t ∨
    t ∉ s.ring ∧ t ∈ s.deadThreads ∧ ¬ s.TakenOut t ∨
    t ∉ s.ring ∧ t ∉ s.deadThreads ∧ s.TakenOut t

theorem Placed.takenOut_iff {place : ℕ → Place} (h : Placed s.core place) :
    s.TakenOut t ↔ (∃ r, place t = .held r) ∨ place t = .freed := by
  have hheld : ∀ r, place t = .held r ↔ (s.pc r).taken = some t := h.held t
  have hfreed : place t = .freed ↔ t ∈ s.freedRecords := h.freedRecords t
  simp only [TakenOut, ne_eq, ← hheld, ← hfreed]
  constructor
  · rintro (⟨⟨r, hr, -⟩, -⟩ | ⟨-, hf⟩)
    · exact Or.inl ⟨r, hr⟩
    · exact Or.inr hf
  · rintro (⟨r, hr⟩ | hf)
    · refine Or.inl ⟨⟨r, hr, fun r' hr' => ?_⟩, ?_⟩
      · rw [hr, Place.held.injEq] at hr'
        exact hr'.symm
      · rw [hr]
        exact Place.noConfusion
    · refine Or.inr ⟨fun r hr => ?_, hf⟩
      rw [hf] at hr
      cases hr

theorem Placed.inOnePlace {place : ℕ → Place} (h : Placed s.core place) (ht : t < s.created) :
    s.InOnePlace t := by
  have hring : place t = .ring ↔ t ∈ s.ring := h.ring t
  have hdead : place t = .dead ↔ t ∈ s.deadThreads := h.dead t
  simp only [InOnePlace, h.takenOut_iff, ← hring, ← hdead]
  cases hp : place t with
  | unborn => exact absurd ((h.unborn t).1 hp) (not_le.2 ht)
  | ring => simp
  | dead => simp
  | held r => simp
  | freed => simp

theorem Placed.notMem_of_freed {place : ℕ → Place} (h : Placed s.core place)
    (ht : t ∈ s.freedStacks ∨ t ∈ s.freedRecords) : t ∉ s.ring ∧ t ∉ s.deadThreads := by
  have hplace : (∃ r, place t = .held r) ∨ place t = .freed := by
    rcases ht with ht | ht
    · rcases (h.freedStacks t).1 ht with hf | ⟨r, hr⟩
      · exact Or.inr hf
      · exact Or.inl ⟨r, h.held_of_stackless hr⟩
    · exact Or.inr ((h.freedRecords t).2 ht)
  constructor
  · intro hmem
    rw [(h.ring t).2 hmem] at hplace
    rcases hplace with ⟨r, hr⟩ | hr <;> cases hr
  · intro hmem
    rw [(h.dead t).2 hmem] at hplace
    rcases hplace with ⟨r, hr⟩ | hr <;> cases hr

/-- Nothing has been taken out since the threads of the ring were created. -/
structure Started (s : Scheduler) : Prop extends s.Booted where
  ringNodup : s.ring.Nodup
  ids : ∀ t ∈ s.ring, ∀ u ∈ s.ring, s.id t = s.id u → t = u
  linked : ∀ t < s.created, t ∈ s.ring
  idle : ∀ t, (s.pc t).taken = none
  deadThreads : s.deadThreads = []
  freedStacks : s.freedStacks = []
  freedRecords : s.freedRecords = []

theorem Started.distinct (h : s.Started) : Distinct s.core := by
  refine ⟨h.ids, fun t _ hid => ?_⟩
  simp only [core] at hid
  rcases h.place t with hpc | ⟨stage, hpc⟩ <;> rw [hpc] at hid <;> cases hid

theorem Started.placed (h : s.Started) :
    Placed s.core fun t => if t < s.created then .ring else .unborn := by
  have hstackless : ∀ r, (s.pc r).stackless = none := fun r => Pc.stackless_eq_none (h.idle r)
  refine ⟨fun t => ?_, fun t => ?_, h.ringNodup, fun t => ?_, ?_, fun t r => ?_, fun t => ?_, ?_,
    fun t => ?_, ?_⟩ <;>
    simp only [core, h.deadThreads, h.freedStacks, h.freedRecords, h.idle, hstackless]
  · split_ifs with ht
    · simpa using ht
    · simpa using ht
  · split_ifs with ht
    · simpa using h.linked t ht
    · simpa using fun hmem => ht (h.created t hmem)
  · split_ifs <;> simp
  · exact List.nodup_nil
  · split_ifs <;> simp
  · split_ifs <;> simp
  · exact List.nodup_nil
  · split_ifs <;> simp
  · exact List.nodup_nil

/-- What the places need of the rest of the state. -/
structure Conserved (s : Scheduler) (place : ℕ → Place) : Prop where
  inv : Inv s
  runs : Runs s
  distinct : Distinct s.core
  placed : Placed s.core place

theorem Started.conserved (h : s.Started) :
    Conserved s fun t => if t < s.created then .ring else .unborn :=
  ⟨inv_booted h.toBooted, runs_booted h.toBooted, h.distinct, h.placed⟩

theorem conserved_step {place : ℕ → Place} (h : Conserved s place) (hC : Targets s e)
    (hstep : s.step e = some s') : ∃ place', Conserved s' place' ∧ Advances place place' := by
  obtain ⟨hinv, hr, hd, hp⟩ := h
  have hturn := turn_step hstep
  obtain ⟨place', hplaced, hadvances⟩ := placed_turn hp hinv hr.mem hturn
  exact ⟨place', ⟨inv_step hinv hr hstep, runs_step hr (hd.spares hr.mem e) hstep,
    distinct_turn hd hr hC hturn, hplaced⟩, hadvances⟩

/-- What has been taken out stays so, whoever has it. -/
theorem takenOut_step {place : ℕ → Place} (h : Conserved s place) (hC : Targets s e)
    (hstep : s.step e = some s') (ht : s.TakenOut t) : s'.TakenOut t := by
  obtain ⟨place', h', hadvances⟩ := conserved_step h hC hstep
  rw [h.placed.takenOut_iff] at ht
  rw [h'.placed.takenOut_iff]
  rcases hadvances with rfl | ⟨u, p, hnext, rfl⟩
  · exact ht
  · by_cases htu : t = u
    · subst htu
      rw [Function.update_self]
      rcases ht with ⟨r, hr⟩ | hfreed
      · rw [hr] at hnext
        cases hnext
        exact Or.inr rfl
      · rw [hfreed] at hnext
        cases hnext
    · rwa [Function.update_of_ne htu]

/-- **Threads are conserved.** In every state of a run in which `destroyThread` is called with the ids
of other threads of the ring, every thread created is in exactly one of the three places, and there
once; each stack and each record is given back at most once, and then the thread is neither in the
ring nor on the list of the dead, nor is it the one that runs. -/
theorem threads_conserved {events : List Event} (hstart : s.Started)
    (hC : Trace.Along step Targets s events) (hrun : Trace.run step s events = some s') :
    (∀ t < s'.created, s'.InOnePlace t) ∧ s'.ring.Nodup ∧ s'.deadThreads.Nodup ∧
      s'.freedStacks.Nodup ∧ s'.freedRecords.Nodup ∧
      ∀ t, t ∈ s'.freedStacks ∨ t ∈ s'.freedRecords →
        t ∉ s'.ring ∧ t ∉ s'.deadThreads ∧ t ≠ s'.currentThread := by
  obtain ⟨place, hinv, hr, hd, hp⟩ := Trace.run_invariant_along
    (I := fun s => ∃ place, Conserved s place)
    (fun s e s' ⟨place, h⟩ hC hstep => (conserved_step h hC hstep).imp fun _ h => h.1)
    ⟨_, hstart.conserved⟩ hC hrun
  refine ⟨fun t ht => hp.inOnePlace ht, hp.ringNodup, hp.deadNodup, hp.stacksNodup, hp.recordsNodup,
    fun t ht => ?_⟩
  obtain ⟨hring, hdead⟩ := hp.notMem_of_freed ht
  refine ⟨hring, hdead, ?_⟩
  rintro rfl
  exact hring hr.mem

theorem started_boot : boot.Started where
  toBooted := booted_boot
  ringNodup := by decide
  ids := by decide
  linked := by decide
  deadThreads := rfl
  freedStacks := rfl
  freedRecords := rfl
  idle := fun t => by
    by_cases ht : t = 1
    · rw [ht]
      rfl
    · have hpc : boot.pc t = .running := if_neg ht
      rw [hpc]
      rfl

/-- Threads 2 and 3 are created. Thread 2 exits, so that it is on the list of the dead, and the
kernel's thread has taken out thread 3, and given back its stack. -/
def exitAndDestroy : List Event :=
  [.call .createThread, .call .createThread, .preempt, .preempt, .call .exitThread, .advance, .advance,
    .advance, .advance, .preempt, .call (.destroyThread 3), .advance, .advance, .advance, .advance,
    .advance]

theorem threads_conserved_exitAndDestroy :
    ∃ s, Trace.run step boot exitAndDestroy = some s ∧ s.ring = [0, 1] ∧ s.deadThreads = [2] ∧
      s.freedStacks = [3] ∧ ∀ t < 4, s.InOnePlace t := by
  have hC : Trace.Along step Targets boot exitAndDestroy := by decide
  obtain ⟨s, hrun, hring, hdead, hstacks, hcreated⟩ :
      ∃ s, Trace.run step boot exitAndDestroy = some s ∧ s.ring = [0, 1] ∧ s.deadThreads = [2] ∧
        s.freedStacks = [3] ∧ s.created = 4 := ⟨_, rfl, rfl, rfl, rfl, rfl⟩
  have hconserved := threads_conserved started_boot hC hrun
  exact ⟨s, hrun, hring, hdead, hstacks, fun t ht => hconserved.1 t (hcreated ▸ ht)⟩

end Scheduler

end Naul
