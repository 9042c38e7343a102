import Naul.Scheduler.Ring
import Naul.Lib.Trace

/-!
# Thread ids, over the links

`createThread` looks for an id from the head of the ring, `destroyThread` and `exitThread` unlink a
record, and each does so with interrupts disabled: these sections are the events of the machine below,
which has nothing but the records of the threads, at their addresses. A record that is in neither list
is memory like any other, and whoever owns it stores there what he likes.

`ids_distinct` says that the ids of the ring stay distinct, and that the search finds the least id that
is not taken. `exitThread` must be called by a thread of the ring for this: a thread that has destroyed
itself runs on, and its header still has the links it had, which bring back what has been unlinked
since (`unlinked_record_returns`).
-/

namespace Naul

open LinkRing

namespace Scheduler

/-- The records of the threads, and the sentinels: `threads`, which is the kernel's thread, is at 0. -/
structure Records where
  links : Links ℕ
  id : ℕ → ℕ
  deadThreads : ℕ
  currentThread : ℕ

namespace Records

/-- `createThread`, to which `allocate` has returned the record `thread`; the id it returns. -/
def createThread (fuel thread : ℕ) (s : Records) : Option (ℕ × Records) := do
  let links := setNext s.links thread s.currentThread
  let id ← chooseId fuel links s.id
  return (id, { s with links := linkList links 0 thread, id := Function.update s.id thread id })

/-- `destroyThread(id)`, between `cli` and `sti`. -/
def destroyThread (fuel id : ℕ) (s : Records) : Option Records := do
  let current ← awaitId fuel s.links s.id id
  return { s with links := unlinkList s.links current }

/-- `nextThread`, where `waiting` are the flags of the threads. -/
def nextThread (fuel : ℕ) (waiting : ℕ → Bool) (s : Records) : Option Records := do
  let currentThread ← WhileLoop.run (nextTurn s.links waiting) fuel s.currentThread
  return { s with currentThread }

/-- `exitThread`, from `cli` on. -/
def exitThread (fuel : ℕ) (waiting : ℕ → Bool) (s : Records) : Option Records :=
  let links := linkList (unlinkList s.links s.currentThread) s.deadThreads s.currentThread
  nextThread fuel waiting { s with links, currentThread := s.links.prev s.currentThread }

/-- `cleaner`, between `cli` and `sti`. -/
def cleaner (s : Records) : Option Records :=
  if s.links.next s.deadThreads = s.deadThreads then none
  else some { s with links := unlinkList s.links (s.links.next s.deadThreads) }

inductive Event
  | createThread (thread : ℕ)
  | destroyThread (id : ℕ)
  | exitThread (waiting : ℕ → Bool)
  | cleaner
  /-- The current thread is interrupted, or it yields. -/
  | nextThread (waiting : ℕ → Bool)
  /-- A store to memory that is no record of a thread, or no longer. -/
  | store (address next prev id : ℕ)

def step (fuel : ℕ) (s : Records) : Event → Option Records
  | .createThread thread => (s.createThread fuel thread).map Prod.snd
  | .destroyThread id => s.destroyThread fuel id
  | .exitThread waiting => s.exitThread fuel waiting
  | .cleaner => s.cleaner
  | .nextThread waiting => s.nextThread fuel waiting
  | .store address next prev id =>
    some { s with
      links := setPrev (setNext s.links address next) address prev
      id := Function.update s.id address id }

/-! ### The invariant -/

/-- The lists are well formed, and the ids of the ring are distinct. -/
structure Inv (s : Records) (ring deadThreads : List ℕ) : Prop where
  shared : Shared s.links s.deadThreads ring deadThreads
  ids : (ring.map s.id).Nodup
  kernel : s.id 0 = 0

/-- The address is the kernel's, or that of a thread in the ring. -/
def InRing (s : Records) (t : ℕ) : Prop := ∃ ring, Linked s.links ring ∧ t ∈ ring

/-- The address is the sentinel's, or that of a thread on the list. -/
def Dead (s : Records) (t : ℕ) : Prop :=
  ∃ deadThreads, IsRing s.links s.deadThreads deadThreads ∧ t ∈ s.deadThreads :: deadThreads

/-- The allocator returns no block in use, and only owners store. -/
def Fresh (s : Records) : Event → Prop
  | .createThread t | .store t _ _ _ => ¬ s.InRing t ∧ ¬ s.Dead t
  | .destroyThread _ | .exitThread _ | .cleaner | .nextThread _ => True

/-- The thread that exits is in the ring, and the kernel's own thread is not taken out. -/
def Present (s : Records) : Event → Prop
  | .exitThread _ => s.InRing s.currentThread ∧ s.currentThread ≠ 0
  | .destroyThread id => id ≠ 0
  | .createThread _ | .cleaner | .nextThread _ | .store _ _ _ _ => True

variable {s s' : Records} {ring deadThreads : List ℕ} {t fuel : ℕ} {event : Event}

theorem linked_unique {l : Links ℕ} {r : List ℕ} (h : Linked l ring) (h' : Linked l r) : ring = r := by
  obtain ⟨xs, rfl, hxs⟩ := h
  obtain ⟨ys, rfl, hys⟩ := h'
  rw [isRing_unique hxs hys]

theorem Inv.mem_of_inRing (h : s.Inv ring deadThreads) (ht : s.InRing t) : t ∈ ring := by
  obtain ⟨r, hr, ht⟩ := ht
  exact linked_unique h.shared.living hr ▸ ht

/-- A block that the allocator returns is in neither list. -/
theorem Inv.fresh (h : s.Inv ring deadThreads) (hring : ¬ s.InRing t) (hdead : ¬ s.Dead t) :
    t ∉ ring ∧ t ∉ s.deadThreads :: deadThreads :=
  ⟨fun ht => hring ⟨ring, h.shared.living, ht⟩, fun ht => hdead ⟨deadThreads, h.shared.listed, ht⟩⟩

theorem Inv.kernel_mem (h : s.Inv ring deadThreads) : 0 ∈ ring := by
  obtain ⟨xs, rfl, -⟩ := h.shared.living
  exact List.mem_cons_self

/-- The pointers of the two lists are all that matters. -/
theorem shared_congr {l l' : Links ℕ} {dead : ℕ} (h : Shared l dead ring deadThreads)
    (hsame : ∀ a, a ∈ ring ∨ a ∈ dead :: deadThreads → l'.next a = l.next a ∧ l'.prev a = l.prev a) :
    Shared l' dead ring deadThreads := by
  obtain ⟨⟨xs, rfl, hring⟩, hlisted, hapart⟩ := h
  exact ⟨⟨xs, rfl, hring.congr fun a ha => hsame a (Or.inl ha)⟩,
    hlisted.congr fun a ha => hsame a (Or.inr ha), hapart⟩

theorem shared_setNext {l : Links ℕ} {dead a : ℕ} (h : Shared l dead ring deadThreads) (ht : t ∉ ring)
    (hdead : t ∉ dead :: deadThreads) : Shared (setNext l t a) dead ring deadThreads := by
  refine shared_congr h fun b hb => ?_
  have hne : b ≠ t := by
    rintro rfl
    exact hb.elim ht hdead
  simp [hne]

theorem shared_setPrev {l : Links ℕ} {dead a : ℕ} (h : Shared l dead ring deadThreads) (ht : t ∉ ring)
    (hdead : t ∉ dead :: deadThreads) : Shared (setPrev l t a) dead ring deadThreads := by
  refine shared_congr h fun b hb => ?_
  have hne : b ≠ t := by
    rintro rfl
    exact hb.elim ht hdead
  simp [hne]

theorem map_update {id : ℕ → ℕ} {i : ℕ} (ht : t ∉ ring) :
    ring.map (Function.update id t i) = ring.map id := by
  refine List.map_congr_left fun u hu => Function.update_of_ne ?_ ..
  rintro rfl
  exact ht hu

/-! ### The search for an id -/

/-- The search ends, with the least id that is not taken. -/
theorem Inv.createThread (h : s.Inv ring deadThreads) (ht : t ∉ ring)
    (hdead : t ∉ s.deadThreads :: deadThreads) :
    ∃ n i, s.createThread n t = some (i,
        { s with
          links := linkList (setNext s.links t s.currentThread) 0 t
          id := Function.update s.id t i }) ∧
      IsLeast {k | k ∉ ring.map s.id} i := by
  have hlinked := (shared_setNext (a := s.currentThread) h.shared ht hdead).living
  obtain ⟨n, hn⟩ := @chooseId_eq _ _ s.id hlinked
  have hspec := freeId_spec (ring.map s.id)
  rw [List.length_map] at hspec
  refine ⟨n, freeId (ring.map s.id) 0 ring.length, ?_, hspec.1, fun k hk => ?_⟩
  · simp only [Records.createThread, hn, bind, Option.bind_some, pure]
  · exact Nat.le_of_not_lt fun hlt => hk (hspec.2 k hlt)

theorem createThread_unique {m n : ℕ} {r r' : ℕ × Records} (h : s.createThread m t = some r)
    (h' : s.createThread n t = some r') : r = r' := by
  simp only [Records.createThread, bind, Option.bind_eq_some_iff, pure, Option.some.injEq] at h h'
  obtain ⟨i, hi, rfl⟩ := h
  obtain ⟨j, hj, rfl⟩ := h'
  obtain rfl := WhileLoop.run_unique hi hj
  rfl

/-! ### Steps -/

/-- A new thread with an id that is not taken. -/
theorem Inv.create (h : s.Inv ring deadThreads) (ht : t ∉ ring)
    (hdead : t ∉ s.deadThreads :: deadThreads) {i : ℕ} (hi : i ∉ ring.map s.id) :
    Inv { s with
      links := linkList (setNext s.links t s.currentThread) 0 t
      id := Function.update s.id t i } (ring ++ [t]) deadThreads := by
  have hkernel : (0 : ℕ) ≠ t := fun heq => ht (heq ▸ h.kernel_mem)
  refine ⟨(shared_setNext h.shared ht hdead).create ht hdead, ?_, ?_⟩
  · show ((ring ++ [t]).map (Function.update s.id t i)).Nodup
    rw [List.map_append, map_update ht, List.map_singleton, Function.update_self, ← List.concat_eq_append]
    exact h.ids.concat hi
  · exact (Function.update_of_ne hkernel ..).trans h.kernel

/-- A thread is unlinked. -/
theorem Inv.unlink (h : s.Inv ring deadThreads) {links : Links ℕ} {dead : List ℕ}
    (hshared : Shared links s.deadThreads (ring.erase t) dead) (currentThread : ℕ) :
    Inv { s with links, currentThread } (ring.erase t) dead :=
  ⟨hshared, h.ids.sublist (List.erase_sublist.map _), h.kernel⟩

/-- The switch to another thread changes no record. -/
theorem Inv.nextThread (h : s.Inv ring deadThreads) {waiting : ℕ → Bool}
    (hstep : s.nextThread fuel waiting = some s') : s'.Inv ring deadThreads := by
  simp only [Records.nextThread, bind, Option.bind_eq_some_iff, pure, Option.some.injEq] at hstep
  obtain ⟨u, -, rfl⟩ := hstep
  exact ⟨h.shared, h.ids, h.kernel⟩

/-- What `destroyThread` finds is in the ring. -/
theorem awaitId_mem {l : Links ℕ} {id : ℕ → ℕ} {want u : ℕ} (h : Linked l ring)
    (hrun : awaitId fuel l id want = some u) : u ∈ ring ∧ id u = want := by
  cases hfind : ring.find? (fun t => decide (id t = want)) with
  | none => rw [awaitId_diverges h hfind] at hrun; cases hrun
  | some v =>
    obtain rfl := WhileLoop.run_unique hrun (awaitId_eq h hfind)
    exact ⟨List.mem_of_find?_eq_some hfind, by simpa using List.find?_some hfind⟩

theorem inv_step (h : s.Inv ring deadThreads) (hfresh : s.Fresh event) (hpresent : s.Present event)
    (hstep : s.step fuel event = some s') : ∃ ring deadThreads, s'.Inv ring deadThreads := by
  cases event with
  | createThread t =>
    obtain ⟨ht, hdead⟩ := h.fresh hfresh.1 hfresh.2
    obtain ⟨n, i, hcreate, hleast⟩ := Inv.createThread h ht hdead
    obtain ⟨r, hr, rfl⟩ := Option.map_eq_some_iff.1 hstep
    obtain rfl := createThread_unique hr hcreate
    exact ⟨_, _, h.create ht hdead hleast.1⟩
  | destroyThread id =>
    simp only [step, destroyThread, bind, Option.bind_eq_some_iff, pure, Option.some.injEq] at hstep
    obtain ⟨t, hawait, rfl⟩ := hstep
    obtain ⟨ht, hid⟩ := awaitId_mem h.shared.living hawait
    have hne : t ≠ 0 := by
      rintro rfl
      exact hpresent (hid.symm.trans h.kernel)
    exact ⟨_, _, h.unlink (h.shared.destroy ht hne) _⟩
  | exitThread waiting =>
    have ht := h.mem_of_inRing hpresent.1
    exact ⟨_, _, (h.unlink (h.shared.exit ht hpresent.2) _).nextThread hstep⟩
  | cleaner =>
    simp only [step, cleaner] at hstep
    split_ifs at hstep with hempty
    obtain rfl := Option.some.inj hstep
    cases deadThreads with
    | nil => exact absurd (h.shared.listed.linked_last (List.nil_append _).symm).1 hempty
    | cons t deadThreads =>
      obtain ⟨hnext, hshared⟩ := h.shared.take
      exact ⟨ring, deadThreads, hnext ▸ hshared, h.ids, h.kernel⟩
  | nextThread waiting => exact ⟨_, _, h.nextThread hstep⟩
  | store address next prev id =>
    obtain ⟨ht, hdead⟩ := h.fresh hfresh.1 hfresh.2
    obtain rfl := Option.some.inj hstep
    have hkernel : (0 : ℕ) ≠ address := fun heq => ht (heq ▸ h.kernel_mem)
    refine ⟨ring, deadThreads, shared_setPrev (shared_setNext h.shared ht hdead) ht hdead, ?_, ?_⟩
    · rw [map_update ht]
      exact h.ids
    · exact (Function.update_of_ne hkernel ..).trans h.kernel

/-- Only the kernel's thread is there, with the id 0. -/
structure Started (s : Records) : Prop where
  ring : IsRing s.links 0 []
  dead : IsRing s.links s.deadThreads []
  apart : s.deadThreads ≠ 0
  kernel : s.id 0 = 0

theorem Started.inv (h : s.Started) : s.Inv [0] [] := by
  refine ⟨⟨⟨[], rfl, h.ring⟩, h.dead, fun t ht => ?_⟩, List.nodup_singleton _, h.kernel⟩
  rw [List.mem_singleton] at ht ⊢
  exact fun heq => h.apart (heq.symm.trans ht)

/-- **Ids identify threads.** In a run in which only threads of the ring exit, the ids of the ring are
distinct, and `createThread` returns the least number that is none of them. -/
theorem ids_distinct {events : List Event} (hstart : s.Started)
    (hfresh : Trace.Along (step fuel) Fresh s events)
    (hpresent : Trace.Along (step fuel) Present s events)
    (hrun : Trace.run (step fuel) s events = some s') :
    ∃ ring, Linked s'.links ring ∧ (ring.map s'.id).Nodup ∧
      ∀ thread, s'.Fresh (.createThread thread) →
        (∃ n r, s'.createThread n thread = some r) ∧
        ∀ n r, s'.createThread n thread = some r →
          r.2.id thread = r.1 ∧ IsLeast {i | ∀ t ∈ ring, s'.id t ≠ i} r.1 := by
  obtain ⟨ring, deadThreads, hinv⟩ :=
    Trace.run_invariant_along (I := fun s => ∃ ring deadThreads, s.Inv ring deadThreads)
      (fun s e s' ⟨_, _, h⟩ hC hstep => inv_step h hC.1 hC.2 hstep) ⟨_, _, hstart.inv⟩
      (hfresh.and hpresent) hrun
  refine ⟨ring, hinv.shared.living, hinv.ids, fun thread hthread => ?_⟩
  obtain ⟨ht, hdead⟩ := hinv.fresh hthread.1 hthread.2
  obtain ⟨n, i, hcreate, hleast⟩ := Inv.createThread hinv ht hdead
  refine ⟨⟨n, _, hcreate⟩, fun m r hr => ?_⟩
  obtain rfl := createThread_unique hr hcreate
  refine ⟨Function.update_self .., ?_⟩
  simpa only [List.mem_map, not_exists, not_and] using hleast

/-- The conditions of `Fresh` can be evaluated where the lists can be traversed. -/
def ClearOf (n : ℕ) (s : Records) : Event → Prop
  | .createThread t | .store t _ _ _ => ∃ xs ∈ traverse n s.links 0, t ∉ 0 :: xs ∧
    ∃ ys ∈ traverse n s.links s.deadThreads, t ∉ s.deadThreads :: ys
  | .destroyThread _ | .exitThread _ | .cleaner | .nextThread _ => True

theorem ClearOf.fresh {n : ℕ} (h : s.ClearOf n event) : s.Fresh event := by
  have hclear : ∀ t, (∃ xs ∈ traverse n s.links 0, t ∉ 0 :: xs ∧
      ∃ ys ∈ traverse n s.links s.deadThreads, t ∉ s.deadThreads :: ys) →
      ¬ s.InRing t ∧ ¬ s.Dead t := by
    rintro t ⟨xs, hxs, ht, ys, hys, hdead⟩
    constructor
    · rintro ⟨-, ⟨zs, rfl, hzs⟩, hmem⟩
      exact ht (WhileLoop.run_unique hxs (traverse_eq hzs) ▸ hmem)
    · rintro ⟨zs, hzs, hmem⟩
      exact hdead (WhileLoop.run_unique hys (traverse_eq hzs) ▸ hmem)
  cases event with
  | createThread t => exact hclear t h
  | store t => exact hclear t h
  | destroyThread | exitThread | cleaner | nextThread => trivial

instance decidableClearOf (n : ℕ) (s : Records) : ∀ e, Decidable (s.ClearOf n e)
  | .createThread t | .store t _ _ _ =>
    match h : traverse n s.links 0, h' : traverse n s.links s.deadThreads with
    | some xs, some ys => decidable_of_iff (t ∉ 0 :: xs ∧ t ∉ s.deadThreads :: ys)
        (by simp [ClearOf, h, h'])
    | none, _ => isFalse (by simp [ClearOf, h])
    | some _, none => isFalse (by simp [ClearOf, h'])
  | .destroyThread _ | .exitThread _ | .cleaner | .nextThread _ => isTrue trivial

/-- The kernel's thread alone. -/
def alone : Records := ⟨emptyRing ℕ, fun _ => 0, 100, 0⟩

theorem alone_started : alone.Started :=
  ⟨isRing_emptyRing 0, isRing_emptyRing 100, by decide, rfl⟩

/-- Thread 1 exits, and the cleaner takes it out. -/
def exitThenClean : List Event :=
  [.createThread 1, .nextThread fun _ => false, .exitThread fun _ => false, .cleaner]

theorem ids_distinct_exitThenClean :
    ∃ s, Trace.run (step 4) alone exitThenClean = some s ∧
      ∃ ring, Linked s.links ring ∧ (ring.map s.id).Nodup := by
  have hfresh : Trace.Along (step 4) (ClearOf 4) alone exitThenClean := by decide
  have hring : InRing ⟨linkList (setNext (emptyRing ℕ) 1 0) 0 1, Function.update (fun _ => 0) 1 1, 100, 1⟩
      1 := by
    have h := alone_started.inv
    have hnew : alone.Fresh (.createThread 1) := hfresh.1.fresh
    obtain ⟨ht, hdead⟩ := h.fresh hnew.1 hnew.2
    exact ⟨[0, 1], (h.create ht hdead (i := 1) (by decide)).shared.living, by decide⟩
  have hpresent : Trace.Along (step 4) Present alone exitThenClean := by
    refine ⟨trivial, fun s₁ h₁ => ⟨trivial, fun s₂ h₂ => ⟨?_, fun _ _ => ⟨trivial, fun _ _ => trivial⟩⟩⟩⟩
    cases h₁
    cases h₂
    exact ⟨hring, by decide⟩
  obtain ⟨ring, hring, hnodup, -⟩ :=
    ids_distinct alone_started (hfresh.imp fun _ _ => ClearOf.fresh) hpresent rfl
  exact ⟨_, rfl, ring, hring, hnodup⟩

/-- Thread 1 destroys itself, then thread 2, creates two threads, which get the ids 1 and 2, and exits. -/
def destroyThenExit : List Event :=
  [.createThread 1, .createThread 2, .createThread 3, .nextThread fun _ => false, .destroyThread 1,
    .destroyThread 2, .createThread 4, .createThread 5, .exitThread fun _ => false]

/-- The links of thread 1 bring thread 2 back into the ring, where there is another thread with its
id. -/
theorem unlinked_record_returns : alone.Started ∧
    Trace.Along (step 20) Fresh alone destroyThenExit ∧
    ∃ s, Trace.run (step 20) alone destroyThenExit = some s ∧
      traverse 20 s.links 0 = some [2, 3, 4, 5] ∧ s.id 2 = s.id 5 := by
  have hfresh : Trace.Along (step 20) (ClearOf 20) alone destroyThenExit := by decide
  exact ⟨alone_started, hfresh.imp fun _ _ => ClearOf.fresh, _, rfl, by decide, by decide⟩

end Records

end Scheduler

end Naul
