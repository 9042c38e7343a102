import Naul.Scheduler.Machine
import Naul.List

/-!
# The ring of threads, by its links

The machine has the ring as a list. In the source it is a circular list whose sentinel, `threads`, is
the record of the kernel's own thread, so that a search looks at the sentinel first. The loops of the
source are modelled here over the links; each one computes what the machine takes for it, and
`linkList` and `unlinkList` make the machine's changes of the list.
-/

namespace Naul

open LinkRing

namespace Scheduler

/-- The ring with the given links is the machine's; `threads` is thread 0. -/
def Linked (l : Links ℕ) (ring : List ℕ) : Prop := ∃ xs, ring = 0 :: xs ∧ IsRing l 0 xs

variable {l : Links ℕ} {ring : List ℕ} {id : ℕ → ℕ} {waiting : ℕ → Bool} {want t u : ℕ}

theorem Linked.nodup (h : Linked l ring) : ring.Nodup := by
  obtain ⟨xs, rfl, hring⟩ := h
  exact hring.nodup

/-! ### Searching for an id -/

/-- The search of `waitForThread`: the thread, or nothing when it is back at `threads`. -/
def findId (fuel : ℕ) (l : Links ℕ) (id : ℕ → ℕ) (want : ℕ) : Option (Option ℕ) :=
  WhileLoop.run (visit l 0 (fun (_ : Unit) t => if id t = want then .inr (some t) else .inl ())
    fun _ => none) fuel ((), 0)

theorem foldUntil_find? (p : ℕ → Prop) [DecidablePred p] (xs : List ℕ) :
    foldUntil (fun (_ : Unit) t => if p t then .inr (some t) else .inl ()) (fun _ => none) () xs =
      xs.find? p := by
  induction xs with
  | nil => rfl
  | cons x xs ih =>
    by_cases hx : p x
    · rw [List.find?_cons_of_pos (by simpa using hx)]
      simp [foldUntil, hx]
    · rw [List.find?_cons_of_neg (by simpa using hx), ← ih]
      simp [foldUntil, hx]

theorem findId_eq (h : Linked l ring) :
    findId ring.length l id want = some (ring.find? fun t => id t = want) := by
  obtain ⟨xs, rfl, hring⟩ := h
  rw [findId, List.length_cons, run_visit hring, foldUntil_find?]

/-- `while (current->id != id) { current = current->header.next; }`. -/
def awaitId (fuel : ℕ) (l : Links ℕ) (id : ℕ → ℕ) (want : ℕ) : Option ℕ :=
  WhileLoop.run (seek l fun t => id t = want) fuel 0

/-- The search of `destroyThread` finds the same thread, if there is one. -/
theorem awaitId_eq (h : Linked l ring) (hfind : ring.find? (fun t => id t = want) = some u) :
    awaitId ring.length l id want = some u := by
  obtain ⟨xs, rfl, hring⟩ := h
  exact run_seek (List.isChain_append.1 hring.chain).1 hfind

/-- Otherwise it never ends. -/
theorem awaitId_diverges (h : Linked l ring) (hfind : ring.find? (fun t => id t = want) = none)
    (fuel : ℕ) : awaitId fuel l id want = none := by
  obtain ⟨xs, rfl, hring⟩ := h
  refine seek_diverges hring (fun x hx => ?_) List.mem_cons_self fuel
  simpa using List.find?_eq_none.1 hfind x hx

/-! ### Choosing an id -/

/-- A turn of the search of `createThread`. -/
def idTurn (l : Links ℕ) (id : ℕ → ℕ) (s : ℕ × ℕ) : (ℕ × ℕ) ⊕ ℕ :=
  if id s.2 = s.1 then .inl (s.1 + 1, 0)
  else if l.next s.2 = 0 then .inr s.1
  else .inl (s.1, l.next s.2)

def chooseId (fuel : ℕ) (l : Links ℕ) (id : ℕ → ℕ) : Option ℕ := WhileLoop.run (idTurn l id) fuel (0, 0)

/-- The search starts again with the next id where `i` is taken, and ends with `i` otherwise. -/
theorem run_idTurn {xs : List ℕ} {i : ℕ} (hchain : ((t :: xs) ++ [0]).IsChain (LinkRing.Linked l))
    (hhead : 0 ∉ xs) :
    (i ∈ (t :: xs).map id ∧ ∃ k, ∀ fuel, WhileLoop.run (idTurn l id) (fuel + k) (i, t) =
        WhileLoop.run (idTurn l id) fuel (i + 1, 0)) ∨
      i ∉ (t :: xs).map id ∧ ∃ n, WhileLoop.run (idTurn l id) n (i, t) = some i := by
  by_cases ht : id t = i
  · exact Or.inl ⟨by simp [ht], 1, fun fuel => WhileLoop.run_succ_inl (by simp [idTurn, ht]) fuel⟩
  induction xs generalizing t with
  | nil =>
    have hnext : l.next t = 0 := (List.isChain_cons_cons.1 hchain).1.1
    refine Or.inr ⟨by simpa using Ne.symm ht, 1, ?_⟩
    exact WhileLoop.run_succ_inr (by simp [idTurn, ht, hnext]) 0
  | cons x xs ih =>
    obtain ⟨⟨hnext, -⟩, hrest⟩ := List.isChain_cons_cons.1 hchain
    rw [List.mem_cons, not_or] at hhead
    have hbody : idTurn l id (i, t) = .inl (i, x) := by simp [idTurn, ht, hnext, Ne.symm hhead.1]
    rw [List.map_cons, List.mem_cons, or_iff_right (Ne.symm ht)]
    by_cases hx : id x = i
    · refine Or.inl ⟨by simp [hx], 2, fun fuel => ?_⟩
      have hbody' : idTurn l id (i, x) = .inl (i + 1, 0) := by simp [idTurn, hx]
      rw [WhileLoop.run_succ_inl hbody, WhileLoop.run_succ_inl hbody']
    · rcases ih hrest hhead.2 hx with ⟨hin, k, hrun⟩ | ⟨hout, n, hrun⟩
      · refine Or.inl ⟨hin, k + 1, fun fuel => ?_⟩
        rw [← Nat.add_assoc, WhileLoop.run_succ_inl hbody, hrun]
      · exact Or.inr ⟨hout, n + 1, by rw [WhileLoop.run_succ_inl hbody, hrun]⟩

/-- From `i` on, the search ends with the first id that is not taken. -/
theorem run_chooseId (h : Linked l ring) {fuel i : ℕ} (hfree : freeId (ring.map id) i fuel ∉ ring.map id) :
    ∃ n, WhileLoop.run (idTurn l id) n (i, 0) = some (freeId (ring.map id) i fuel) := by
  obtain ⟨xs, rfl, hring⟩ := h
  have hturn := fun i => @run_idTurn l id 0 xs i hring.chain (List.nodup_cons.1 hring.nodup).1
  induction fuel generalizing i with
  | zero =>
    rcases hturn i with ⟨hin, -⟩ | ⟨-, hrun⟩
    · exact absurd hin hfree
    · exact hrun
  | succ fuel ih =>
    unfold freeId at hfree ⊢
    rcases hturn i with ⟨hin, k, hrun⟩ | ⟨hout, hrun⟩
    · rw [if_pos hin] at hfree ⊢
      obtain ⟨n, hn⟩ := ih hfree
      exact ⟨n + k, (hrun n).trans hn⟩
    · rw [if_neg hout]
      exact hrun

/-- The ids from `i` to the one found are taken. -/
theorem mem_of_lt_freeId (ids : List ℕ) {i fuel k : ℕ} (hi : i ≤ k) (hk : k < freeId ids i fuel) :
    k ∈ ids := by
  induction fuel generalizing i with
  | zero =>
    unfold freeId at hk
    omega
  | succ fuel ih =>
    unfold freeId at hk
    split_ifs at hk with hin
    · rcases Nat.eq_or_lt_of_le hi with rfl | hlt
      · exact hin
      · exact ih hlt hk
    · omega

/-- The search gives up on no id before it has tried `fuel` of them. -/
theorem freeId_notMem_or (ids : List ℕ) (i fuel : ℕ) :
    freeId ids i fuel ∉ ids ∨ freeId ids i fuel = i + fuel := by
  induction fuel generalizing i with
  | zero => exact Or.inr rfl
  | succ fuel ih =>
    unfold freeId
    split_ifs with hin
    · exact (ih (i + 1)).imp_right fun h => by omega
    · exact Or.inl hin

/-- **The id is the least one that is not taken.** -/
theorem freeId_spec (ids : List ℕ) :
    freeId ids 0 ids.length ∉ ids ∧ ∀ k < freeId ids 0 ids.length, k ∈ ids := by
  have hbelow : ∀ k < freeId ids 0 ids.length, k ∈ ids := fun k hk =>
    mem_of_lt_freeId ids (Nat.zero_le k) hk
  refine ⟨fun hmem => ?_, hbelow⟩
  have hlast := (freeId_notMem_or ids 0 ids.length).resolve_left fun h => h hmem
  rw [Nat.zero_add] at hlast
  rw [hlast] at hmem hbelow
  -- all the numbers up to the length would be in the list
  have hsub : List.range (ids.length + 1) ⊆ ids := by
    intro k hk
    rcases Nat.lt_succ_iff_lt_or_eq.1 (List.mem_range.1 hk) with hlt | rfl
    · exact hbelow k hlt
    · exact hmem
  have hle := (List.nodup_range.subperm hsub).length_le
  rw [List.length_range] at hle
  exact Nat.not_succ_le_self _ hle

/-- **The search of `createThread` ends with the machine's id.** -/
theorem chooseId_eq (h : Linked l ring) :
    ∃ fuel, chooseId fuel l id = some (freeId (ring.map id) 0 ring.length) := by
  have hfree := (freeId_spec (ring.map id)).1
  rw [List.length_map] at hfree
  exact run_chooseId h hfree

/-! ### The next thread -/

/-- A turn of `nextThread`. -/
def nextTurn (l : Links ℕ) (waiting : ℕ → Bool) (t : ℕ) : ℕ ⊕ ℕ :=
  if waiting (l.next t) then .inl (l.next t) else .inr (l.next t)

/-- It is a search that starts one step ahead. -/
theorem run_nextTurn (fuel : ℕ) :
    WhileLoop.run (nextTurn l waiting) fuel t =
      WhileLoop.run (seek l fun u => !waiting u) fuel (l.next t) := by
  induction fuel generalizing t with
  | zero => rfl
  | succ fuel ih =>
    cases hw : waiting (l.next t) with
    | false =>
      have hturn : nextTurn l waiting t = .inr (l.next t) := by simp [nextTurn, hw]
      have hseek : seek l (fun u => !waiting u) (l.next t) = .inr (l.next t) := by simp [seek, hw]
      rw [WhileLoop.run_succ_inr hturn, WhileLoop.run_succ_inr hseek]
    | true =>
      have hturn : nextTurn l waiting t = .inl (l.next t) := by simp [nextTurn, hw]
      have hseek : seek l (fun u => !waiting u) (l.next t) = .inl (l.next (l.next t)) := by
        simp [seek, hw]
      rw [WhileLoop.run_succ_inl hturn, WhileLoop.run_succ_inl hseek, ih]

theorem takeWhile_ne {xs ys zs : List ℕ} (hs : xs = ys ++ t :: zs) (hnodup : xs.Nodup) :
    xs.takeWhile (· ≠ t) = ys ∧ (xs.dropWhile (· ≠ t)).tail = zs := by
  subst hs
  have hys : ∀ y ∈ ys, decide (y ≠ t) = true := by
    rintro y hy
    rw [List.nodup_middle, List.nodup_cons] at hnodup
    rw [decide_eq_true_eq]
    rintro rfl
    exact hnodup.1 (List.mem_append_left _ hy)
  rw [List.takeWhile_append_of_pos hys, List.dropWhile_append_of_pos hys]
  simp

/-- The threads after `t` in the ring are those its links lead to. -/
theorem chain_followers (h : Linked l ring) (ht : t ∈ ring) :
    (t :: followers ring t).IsChain (LinkRing.Linked l) := by
  obtain ⟨ys, zs, hs⟩ := List.append_of_mem ht
  obtain ⟨htake, hdrop⟩ := takeWhile_ne hs h.nodup
  unfold followers
  rw [if_pos ht, htake, hdrop]
  obtain ⟨xs, rfl, hring⟩ := h
  exact hring.chain_from hs

/-- **`nextThread` makes the machine's switch.** -/
theorem nextThread_eq (h : Linked l ring) (hnext : nextThread ring waiting t = some u) :
    ∃ fuel, WhileLoop.run (nextTurn l waiting) fuel t = some u := by
  have ht : t ∈ ring := by
    by_contra hnot
    unfold nextThread followers at hnext
    rw [if_neg hnot] at hnext
    cases hnext
  have hchain := chain_followers h ht
  unfold nextThread at hnext
  cases hf : followers ring t with
  | nil =>
    rw [hf] at hnext
    cases hnext
  | cons x xs =>
    rw [hf] at hchain hnext
    obtain ⟨⟨hstep, -⟩, hrest⟩ := List.isChain_cons_cons.1 hchain
    refine ⟨xs.length + 1, ?_⟩
    rw [run_nextTurn, hstep]
    exact run_seek hrest hnext

/-- With every thread waiting, `nextThread` never ends. -/
theorem nextThread_diverges (h : Linked l ring) (ht : t ∈ ring) (hall : ∀ u ∈ ring, waiting u = true)
    (fuel : ℕ) : WhileLoop.run (nextTurn l waiting) fuel t = none := by
  obtain ⟨xs, rfl, hring⟩ := h
  rw [run_nextTurn]
  exact seek_diverges hring (fun x hx => by simp [hall x hx]) (hring.next_mem_cons ht) fuel

/-! ### Changes of the ring -/

/-- `linkList(&threads.header, &thread->header)` puts a new thread at the end. -/
theorem linked_linkList (h : Linked l ring) (ht : t ∉ ring) : Linked (linkList l 0 t) (ring ++ [t]) := by
  obtain ⟨xs, rfl, hring⟩ := h
  exact ⟨xs ++ [t], rfl, isRing_linkList hring ht⟩

/-- `unlinkList(&thread->header)` takes out a thread that is not the kernel's. -/
theorem linked_unlinkList (h : Linked l ring) (ht : t ∈ ring) (hne : t ≠ 0) :
    Linked (unlinkList l t) (ring.erase t) := by
  obtain ⟨xs, rfl, hring⟩ := h
  obtain ⟨ys, zs, rfl⟩ := List.append_of_mem ((List.mem_cons.1 ht).resolve_left hne)
  have hnodup := hring.nodup
  have hys : t ∉ ys := by
    rw [← List.cons_append, List.nodup_middle, List.nodup_cons] at hnodup
    exact fun hy => hnodup.1 (List.mem_append_left _ (List.mem_cons_of_mem _ hy))
  refine ⟨ys ++ zs, ?_, isRing_unlinkList hring⟩
  rw [List.erase_cons_tail (by simpa using Ne.symm hne), List.erase_append_right _ hys,
    List.erase_cons_head]

/-- The thread before `t`. -/
theorem prev_eq (h : Linked l ring) {p : ℕ} (hprev : prevThread ring t = some p) : l.prev t = p := by
  unfold prevThread at hprev
  split_ifs at hprev with ht
  obtain ⟨ys, zs, hs⟩ := List.append_of_mem ht
  rw [(takeWhile_ne hs h.nodup).1] at hprev
  obtain ⟨ps, rfl⟩ := List.getLast?_eq_some_iff.1 hprev
  obtain ⟨xs, rfl, hring⟩ := h
  rw [List.append_assoc, List.singleton_append] at hs
  exact (hring.linked hs).2

/-! ### The list of the dead -/

/-- The ring and, with the sentinel `dead`, the list `deadThreads`, in the same links: the headers of
the threads of both. -/
structure Shared (l : Links ℕ) (dead : ℕ) (ring deadThreads : List ℕ) : Prop where
  living : Linked l ring
  listed : IsRing l dead deadThreads
  apart : ∀ t ∈ ring, t ∉ dead :: deadThreads

variable {dead : ℕ} {deadThreads : List ℕ}

/-- The end of `createThread`. -/
theorem Shared.create (h : Shared l dead ring deadThreads) (ht : t ∉ ring)
    (hdead : t ∉ dead :: deadThreads) : Shared (linkList l 0 t) dead (ring ++ [t]) deadThreads := by
  obtain ⟨xs, rfl, hring⟩ := h.living
  refine ⟨linked_linkList h.living ht, h.listed.congr fun a ha => ?_, fun u hu => ?_⟩
  · have hout : a ∉ 0 :: xs := fun hmem => h.apart a hmem ha
    exact linkList_frame hring hout fun heq => hdead (heq ▸ ha)
  · rcases List.mem_append.1 hu with hu | hu
    · exact h.apart u hu
    · exact List.mem_singleton.1 hu ▸ hdead

/-- The end of `destroyThread`. -/
theorem Shared.destroy (h : Shared l dead ring deadThreads) (ht : t ∈ ring) (hne : t ≠ 0) :
    Shared (unlinkList l t) dead (ring.erase t) deadThreads := by
  obtain ⟨xs, rfl, hring⟩ := h.living
  refine ⟨linked_unlinkList h.living ht hne, h.listed.congr fun a ha => ?_, fun u hu => ?_⟩
  · exact unlinkList_frame hring ht fun hmem => h.apart a hmem ha
  · exact h.apart u (List.mem_of_mem_erase hu)

/-- The end of `exitThread`: the thread, whose header still has the links it had in the ring, goes to
the end of the other list. -/
theorem Shared.exit (h : Shared l dead ring deadThreads) (ht : t ∈ ring) (hne : t ≠ 0) :
    Shared (linkList (unlinkList l t) dead t) dead (ring.erase t) (deadThreads ++ [t]) := by
  have hnodup := h.living.nodup
  obtain ⟨⟨xs, hxs, hring⟩, hdead, hapart⟩ := h.destroy ht hne
  refine ⟨⟨xs, hxs, hring.congr fun a ha => ?_⟩, isRing_linkList hdead (h.apart t ht), fun u hu => ?_⟩
  · have hmem : a ∈ ring.erase t := hxs ▸ ha
    refine linkList_frame hdead (hapart a hmem) ?_
    rintro rfl
    exact hnodup.not_mem_erase hmem
  · rw [← List.cons_append, List.mem_append, not_or, List.mem_singleton]
    refine ⟨hapart u hu, ?_⟩
    rintro rfl
    exact hnodup.not_mem_erase hu

/-- The removal of `cleaner`. -/
theorem Shared.take (h : Shared l dead ring (t :: deadThreads)) :
    l.next dead = t ∧ Shared (unlinkList l t) dead ring deadThreads := by
  obtain ⟨xs, rfl, hring⟩ := h.living
  have hmem : t ∈ dead :: t :: deadThreads := List.mem_cons_of_mem _ List.mem_cons_self
  have hlisted : IsRing l dead ([] ++ t :: deadThreads) := h.listed
  refine ⟨(h.listed.linked (show dead :: t :: deadThreads = [] ++ dead :: t :: deadThreads from rfl)).1,
    ⟨xs, rfl, hring.congr fun a ha => ?_⟩, isRing_unlinkList hlisted, fun u hu => ?_⟩
  · exact unlinkList_frame h.listed hmem (h.apart a ha)
  · exact fun hd => h.apart u hu (List.mem_cons.2 ((List.mem_cons.1 hd).imp_right (List.mem_cons_of_mem _)))

end Scheduler

end Naul
