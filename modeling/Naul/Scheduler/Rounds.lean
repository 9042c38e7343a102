import Naul.Scheduler.Ring
import Mathlib.Data.List.Rotate

/-!
# Whose turn it is

`nextThread` follows the links from the current thread to the next one whose flag is clear. It does not
look at the current thread before it has been round the ring.

`upcoming` lists the threads that can run in the order in which they are reached. A switch takes the
first and puts it at the end (`upcoming_switch`), so that as many switches as there are such threads
select each of them once.
-/

namespace Naul

open LinkRing

namespace Scheduler

variable {l : Links ℕ} {ring : List ℕ} {waiting : ℕ → Bool} {t u : ℕ} {xs ys zs us vs : List ℕ}

/-- The threads that can run. -/
def runnable (ring : List ℕ) (waiting : ℕ → Bool) : List ℕ := ring.filter fun t => !waiting t

/-- The threads that can run, from the one after `t` on, round the ring. -/
def upcoming (ring : List ℕ) (waiting : ℕ → Bool) (t : ℕ) : List ℕ := runnable (followers ring t) waiting

/-- `nextThread`, `k` times; the threads it makes current. -/
def switches (fuel : ℕ) (l : Links ℕ) (waiting : ℕ → Bool) : ℕ → ℕ → Option (List ℕ)
  | 0, _ => some []
  | k + 1, t => do
    let next ← WhileLoop.run (nextTurn l waiting) fuel t
    let rest ← switches fuel l waiting k next
    return next :: rest

/-! ### Around the ring -/

theorem followers_eq (hs : ring = ys ++ t :: zs) (hnodup : ring.Nodup) :
    followers ring t = zs ++ ys ++ [t] := by
  obtain ⟨htake, hdrop⟩ := takeWhile_ne hs hnodup
  have ht : t ∈ ring := hs ▸ List.mem_append_right ys List.mem_cons_self
  rw [followers, if_pos ht, htake, hdrop]

/-- The threads after `u` are the same from wherever the ring is written down. -/
theorem followers_rotate (hnodup : ring.Nodup) (hu : u ∈ ring) (n : ℕ) :
    followers (ring.rotate n) u = followers ring u := by
  induction n with
  | zero => rw [List.rotate_zero]
  | succ n ih =>
    rw [← ih, ← List.rotate_rotate]
    have hnodup' : (ring.rotate n).Nodup := List.nodup_rotate.2 hnodup
    have hu' : u ∈ ring.rotate n := List.mem_rotate.2 hu
    cases hring : ring.rotate n with
    | nil => rfl
    | cons x xs =>
      rw [hring] at hnodup' hu'
      rw [List.rotate_cons_succ, List.rotate_zero]
      have hnodup'' : (xs ++ [x]).Nodup := (List.perm_append_singleton x xs).nodup_iff.2 hnodup'
      -- the thread that goes to the end is `u` itself, or `u` stands after it
      rcases List.mem_cons.1 hu' with rfl | hmem
      · rw [@followers_eq (u :: xs) u [] xs rfl hnodup', @followers_eq (xs ++ [u]) u xs [] rfl hnodup'']
        simp
      · obtain ⟨as, bs, rfl⟩ := List.append_of_mem hmem
        rw [@followers_eq (x :: (as ++ u :: bs)) u (x :: as) bs rfl hnodup',
          @followers_eq (as ++ u :: bs ++ [x]) u as (bs ++ [x]) (by simp) hnodup'']
        simp

theorem followers_isRotated (ht : t ∈ ring) (hnodup : ring.Nodup) :
    ∃ n, followers ring t = ring.rotate n := by
  obtain ⟨ys, zs, hs⟩ := List.append_of_mem ht
  refine ⟨ys.length + 1, ?_⟩
  have hlength : ys.length + 1 = (ys ++ [t]).length := by simp
  rw [followers_eq hs hnodup, hs, List.append_cons ys t zs, hlength, List.rotate_append_length_eq,
    List.append_assoc]

theorem followers_perm (ht : t ∈ ring) (hnodup : ring.Nodup) : (followers ring t).Perm ring := by
  obtain ⟨n, hn⟩ := followers_isRotated ht hnodup
  rw [hn]
  exact List.rotate_perm ring n

theorem upcoming_perm (ht : t ∈ ring) (hnodup : ring.Nodup) :
    (upcoming ring waiting t).Perm (runnable ring waiting) :=
  (followers_perm ht hnodup).filter _

/-- The first of them is the one that is selected. -/
theorem nextThread_eq_head? : nextThread ring waiting t = (upcoming ring waiting t).head? := by
  rw [nextThread, upcoming, runnable, List.head?_filter]

/-- **A switch** takes the first to the end. -/
theorem upcoming_switch (ht : t ∈ ring) (hnodup : ring.Nodup) (h : upcoming ring waiting t = u :: us) :
    u ∈ ring ∧ upcoming ring waiting u = us ++ [u] := by
  have hu : u ∈ ring := by
    have hmem : u ∈ runnable ring waiting := (upcoming_perm ht hnodup).mem_iff.1 (h ▸ List.mem_cons_self)
    exact List.mem_of_mem_filter hmem
  obtain ⟨n, hn⟩ := followers_isRotated ht hnodup
  -- `as` are the threads that wait, between `t` and `u`
  obtain ⟨as, bs, hsplit, has, hu', hbs⟩ := List.filter_eq_cons_iff.1 h
  have hnodup' : (followers ring t).Nodup := hn ▸ List.nodup_rotate.2 hnodup
  have hwaiting : as.filter (fun t => !waiting t) = [] := List.filter_eq_nil_iff.2 has
  refine ⟨hu, ?_⟩
  rw [upcoming, ← followers_rotate hnodup hu n, ← hn, followers_eq hsplit hnodup', runnable,
    List.filter_append, List.filter_append, hbs, hwaiting, List.append_nil,
    List.filter_cons_of_pos (p := fun t => !waiting t) hu', List.filter_nil]

/-! ### Rounds -/

theorem switches_mono {m n k : ℕ} (hmn : m ≤ n) (h : switches m l waiting k t = some us) :
    switches n l waiting k t = some us := by
  induction k generalizing t us with
  | zero => exact h
  | succ k ih =>
    simp only [switches, bind, Option.bind_eq_some_iff, pure, Option.some.injEq] at h ⊢
    obtain ⟨next, hnext, rest, hrest, rfl⟩ := h
    exact ⟨next, WhileLoop.run_mono hmn hnext, rest, ih hrest, rfl⟩

/-- The first `k` of them are selected by `k` switches. -/
theorem switches_upcoming (h : Linked l ring) (ht : t ∈ ring) (hup : upcoming ring waiting t = us ++ vs) :
    ∃ fuel, switches fuel l waiting us.length t = some us := by
  induction us generalizing t vs with
  | nil => exact ⟨0, rfl⟩
  | cons u us ih =>
    rw [List.cons_append] at hup
    have hnext : nextThread ring waiting t = some u := by rw [nextThread_eq_head?, hup]; rfl
    obtain ⟨m, hm⟩ := nextThread_eq h hnext
    obtain ⟨hu, hup'⟩ := upcoming_switch ht h.nodup hup
    rw [List.append_assoc] at hup'
    obtain ⟨n, hn⟩ := ih hu hup'
    refine ⟨max m n, ?_⟩
    simp only [List.length_cons, switches, WhileLoop.run_mono (le_max_left m n) hm,
      switches_mono (le_max_right m n) hn, bind, Option.bind_some, pure]

/-- **Round robin.** Where a thread of the ring can run, `nextThread` returns from every thread of the ring,
with the first one after it, round the ring and itself at the end, whose flag is clear. And with as many
switches as there are threads that can run, each of them is selected once. -/
theorem nextThread_round (h : Linked l ring) (hrun : ∃ u ∈ ring, waiting u = false)
    (hs : ring = ys ++ t :: zs) :
    (∃ fuel u, WhileLoop.run (nextTurn l waiting) fuel t = some u ∧
        ∃ as bs, zs ++ ys ++ [t] = as ++ u :: bs ∧ waiting u = false ∧ ∀ a ∈ as, waiting a = true) ∧
      ∃ fuel us, switches fuel l waiting (runnable ring waiting).length t = some us ∧
        us.Perm (runnable ring waiting) := by
  have ht : t ∈ ring := hs ▸ List.mem_append_right ys List.mem_cons_self
  have hperm := @upcoming_perm ring waiting t ht h.nodup
  constructor
  · obtain ⟨u, hu, hclear⟩ := hrun
    have hmem : u ∈ upcoming ring waiting t :=
      hperm.mem_iff.2 (List.mem_filter.2 ⟨hu, by simp [hclear]⟩)
    cases hup : upcoming ring waiting t with
    | nil =>
      rw [hup] at hmem
      cases hmem
    | cons v vs =>
      have hnext : nextThread ring waiting t = some v := by rw [nextThread_eq_head?, hup]; rfl
      obtain ⟨fuel, hfuel⟩ := nextThread_eq h hnext
      obtain ⟨as, bs, hsplit, has, hv, -⟩ := List.filter_eq_cons_iff.1 hup
      rw [followers_eq hs h.nodup] at hsplit
      exact ⟨fuel, v, hfuel, as, bs, hsplit, by simpa using hv, fun a ha => by simpa using has a ha⟩
  · obtain ⟨fuel, hfuel⟩ := switches_upcoming h ht (List.append_nil (upcoming ring waiting t)).symm
    rw [hperm.length_eq] at hfuel
    exact ⟨fuel, _, hfuel, hperm⟩

/-- A ring of the threads 0, 1 and 2. -/
def threeThreads : Links ℕ := ⟨fun t => (t + 1) % 3, fun t => (t + 2) % 3⟩

theorem linked_threeThreads : Linked threeThreads [0, 1, 2] := by
  refine ⟨[1, 2], rfl, by decide, ?_⟩
  simp [threeThreads, LinkRing.Linked]

/-- From thread 1, which waits, two switches select the threads 2 and 0. -/
theorem nextThread_round_three :
    ∃ fuel us, switches fuel threeThreads (fun t => t = 1) 2 1 = some us ∧ us.Perm [0, 2] :=
  (@nextThread_round threeThreads [0, 1, 2] (fun t => t = 1) 1 [0] [2] linked_threeThreads
    ⟨0, by decide, rfl⟩ rfl).2

end Scheduler

end Naul
