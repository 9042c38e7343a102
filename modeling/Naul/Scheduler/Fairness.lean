import Naul.Scheduler.Conservation
import Naul.Scheduler.Rounds
import Naul.Lib.Trace

/-!
# Whoever can run gets to run

`ahead s t` is the number of threads that the scheduler passes before it comes to `t`, and `t` itself. A
change of the current thread lowers it, whether the thread is preempted, yields, goes to sleep or exits;
only `createThread` raises it, by one, since a new thread may be linked before `t`. So in any run a
thread of the ring that can run lets at most so many others go first (`no_starvation`).
-/

namespace Naul

namespace Scheduler

variable {s s' : Scheduler} {t u p q : ℕ} {ring xs ys zs : List ℕ} {waiting : ℕ → Bool}

/-- The turns of other threads before that of `t`, and the one of `t`; none when it has its turn. -/
def ahead (t : ℕ) (s : Scheduler) : ℕ :=
  if t ∈ s.ring ∧ s.currentThread ≠ t then (followers s.ring s.currentThread).idxOf t + 1 else 0

/-- The processor goes to another thread. -/
def turns (s : Scheduler) (_ : Event) (s' : Scheduler) : ℕ :=
  if s'.currentThread = s.currentThread then 0 else 1

def creations (_ : Scheduler) (e : Event) (_ : Scheduler) : ℕ := if e = .call .createThread then 1 else 0

/-- Thread `t` of the ring is not the current one and could be. -/
def Ready (t : ℕ) (s : Scheduler) : Prop :=
  t ∈ s.ring ∧ s.waiting t = false ∧ s.currentThread ≠ t

instance decidableReady (t : ℕ) (s : Scheduler) : Decidable (Ready t s) :=
  inferInstanceAs (Decidable (_ ∧ _))

/-! ### The order of the ring -/

theorem mem_followers (hp : p ∈ ring) (hnodup : ring.Nodup) : t ∈ followers ring p ↔ t ∈ ring :=
  (followers_perm hp hnodup).mem_iff

theorem ahead_of_ready (h : Ready t s) :
    ahead t s = (followers s.ring s.currentThread).idxOf t + 1 := if_pos ⟨h.1, h.2.2⟩

/-- No more threads are ahead than there are others. -/
theorem ahead_lt (hmem : s.currentThread ∈ s.ring) (hnodup : s.ring.Nodup) : ahead t s < s.ring.length := by
  unfold ahead
  split_ifs with ht
  · obtain ⟨ys, zs, hs⟩ := List.append_of_mem hmem
    have hrest : t ∈ zs ++ ys := by
      have hall := (mem_followers hmem hnodup).2 ht.1
      rw [followers_eq hs hnodup, List.mem_append, List.mem_singleton] at hall
      exact hall.resolve_right ht.2.symm
    rw [followers_eq hs hnodup, List.idxOf_append_of_mem hrest]
    have hlt := List.idxOf_lt_length_of_mem hrest
    rw [hs]
    simp only [List.length_append, List.length_cons] at hlt ⊢
    omega
  · exact List.length_pos_of_mem hmem

/-- The first thread that can run in a list with `t`: it is `t`, or `t` comes after it. -/
theorem split_at_next (ht : t ∈ xs) (hwait : waiting t = false)
    (hnext : xs.find? (fun v => !waiting v) = some q) (hne : q ≠ t) :
    ∃ as bs, xs = as ++ q :: bs ∧ t ∈ bs := by
  obtain ⟨-, as, bs, rfl, has⟩ := List.find?_eq_some_iff_append.1 hnext
  refine ⟨as, bs, rfl, ?_⟩
  rw [List.mem_append, List.mem_cons] at ht
  rcases ht with hbefore | rfl | hafter
  · have hwaiting := has t hbefore
    simp [hwait] at hwaiting
  · exact absurd rfl hne
  · exact hafter

/-- **A switch** from `p` comes closer to every other thread that can run. -/
theorem idxOf_switch (hp : p ∈ ring) (hnodup : ring.Nodup) (ht : t ∈ ring) (hwait : waiting t = false)
    (hnext : nextThread ring waiting p = some q) (hne : q ≠ t) :
    (followers ring q).idxOf t + 1 ≤ (followers ring p).idxOf t := by
  have hnodup' : (followers ring p).Nodup := (followers_perm hp hnodup).nodup_iff.2 hnodup
  obtain ⟨as, bs, hsplit, hbs⟩ := split_at_next ((mem_followers hp hnodup).2 ht) hwait hnext hne
  have hq : q ∈ ring := mem_of_mem_followers (List.mem_of_find?_eq_some hnext)
  have hfollowers : followers ring q = bs ++ as ++ [q] := by
    obtain ⟨n, hn⟩ := followers_isRotated hp hnodup
    rw [← followers_rotate hnodup hq n, ← hn]
    exact followers_eq hsplit hnodup'
  have has : t ∉ as := by
    rw [hsplit, List.nodup_append] at hnodup'
    exact fun hmem => hnodup'.2.2 t hmem t (List.mem_cons_of_mem _ hbs) rfl
  rw [hfollowers, hsplit, List.append_assoc, List.idxOf_append_of_mem hbs,
    List.idxOf_append_of_notMem has, List.idxOf_cons_ne _ hne]
  omega

/-- A thread that is linked at the end of the ring comes before at most. -/
theorem idxOf_append (hp : p ∈ ring) (hnodup : (ring ++ [u]).Nodup) (ht : t ∈ ring) :
    (followers (ring ++ [u]) p).idxOf t ≤ (followers ring p).idxOf t + 1 := by
  obtain ⟨ys, zs, rfl⟩ := List.append_of_mem hp
  have hnodup' : (ys ++ p :: zs).Nodup := (List.nodup_append.1 hnodup).1
  have hut : u ≠ t := by
    rintro rfl
    exact (List.nodup_append.1 hnodup).2.2 u ht u List.mem_cons_self rfl
  rw [@followers_eq _ p ys (zs ++ [u]) (by simp) hnodup, followers_eq rfl hnodup']
  by_cases hzs : t ∈ zs
  · simp [List.idxOf_append, hzs]
  · rw [List.append_assoc, List.append_assoc, List.append_assoc, List.idxOf_append_of_notMem hzs,
      List.idxOf_append_of_notMem hzs, List.singleton_append, List.idxOf_cons_ne _ hut]
    omega

theorem idxOf_le_of_sublist (h : xs.Sublist ys) (hnodup : ys.Nodup) (ht : t ∈ xs) :
    xs.idxOf t ≤ ys.idxOf t := by
  induction h with
  | slnil => cases ht
  | cons a h ih =>
    rw [List.nodup_cons] at hnodup
    have hat : a ≠ t := by
      rintro rfl
      exact hnodup.1 (h.subset ht)
    rw [List.idxOf_cons_ne _ hat]
    exact Nat.le_succ_of_le (ih hnodup.2 ht)
  | cons_cons a h ih =>
    rw [List.nodup_cons] at hnodup
    by_cases hat : a = t
    · simp [hat]
    · rw [List.idxOf_cons_ne _ hat, List.idxOf_cons_ne _ hat]
      exact Nat.succ_le_succ (ih hnodup.2 ((List.mem_cons.1 ht).resolve_left (Ne.symm hat)))

/-- Another thread is unlinked. -/
theorem idxOf_erase (hp : p ∈ ring) (hnodup : ring.Nodup) (hup : u ≠ p) (ht : t ∈ ring.erase u) :
    (followers (ring.erase u) p).idxOf t ≤ (followers ring p).idxOf t := by
  obtain ⟨ys, zs, rfl⟩ := List.append_of_mem hp
  have hsplit : (ys ++ p :: zs).erase u = ys.erase u ++ p :: zs.erase u := by
    have hcons : (p :: zs).erase u = p :: zs.erase u := List.erase_cons_tail (by simpa using hup.symm)
    by_cases hys : u ∈ ys
    · have hzs : u ∉ zs := fun hmem =>
        (List.nodup_append.1 hnodup).2.2 u hys u (List.mem_cons_of_mem _ hmem) rfl
      rw [List.erase_append_left _ hys, List.erase_of_not_mem hzs]
    · rw [List.erase_append_right _ hys, hcons, List.erase_of_not_mem hys]
  have hp' : p ∈ (ys ++ p :: zs).erase u := (List.mem_erase_of_ne hup.symm).2 hp
  have ht' := (mem_followers hp' (hnodup.erase u)).2 ht
  have hnodup' := (followers_perm hp hnodup).nodup_iff.2 hnodup
  rw [followers_eq hsplit (hnodup.erase u)] at ht' ⊢
  rw [followers_eq rfl hnodup] at hnodup' ⊢
  refine idxOf_le_of_sublist ?_ hnodup' ht'
  exact (List.erase_sublist.append List.erase_sublist).append (List.Sublist.refl _)

/-- The current thread exits: whoever follows it follows the thread before it. -/
theorem followers_leave (hnodup : ring.Nodup) (hprev : prevThread ring p = some q) :
    q ∈ ring.erase p ∧ followers ring p = followers (ring.erase p) q ++ [p] := by
  unfold prevThread at hprev
  split_ifs at hprev with hp
  obtain ⟨ys, zs, rfl⟩ := List.append_of_mem hp
  rw [(takeWhile_ne rfl hnodup).1] at hprev
  obtain ⟨ps, rfl⟩ := List.getLast?_eq_some_iff.1 hprev
  have hps : p ∉ ps ++ [q] := fun hmem =>
    (List.nodup_append.1 hnodup).2.2 p hmem p List.mem_cons_self rfl
  have herase : (ps ++ [q] ++ p :: zs).erase p = ps ++ q :: zs := by
    rw [List.erase_append_right _ hps, List.erase_cons_head, List.append_assoc, List.singleton_append]
  rw [followers_eq rfl hnodup, herase, followers_eq rfl (herase ▸ hnodup.erase p)]
  simp

/-! ### Steps -/

/-- Where a step ends with a switch, it comes closer to `t`. -/
theorem ahead_switch (s' : Scheduler) (hp : p ∈ ring) (hnodup : ring.Nodup) (ht : t ∈ ring)
    (hwait : waiting t = false) (hnext : nextThread ring waiting p = some s'.currentThread) (hring : s'.ring = ring) :
    ahead t s' ≤ (followers ring p).idxOf t := by
  unfold ahead
  split_ifs with hne
  · rw [hring]
    exact idxOf_switch hp hnodup ht hwait hnext hne.2
  · exact Nat.zero_le _

/-- A step of the current thread that is no switch. -/
theorem ahead_stay (e : Event) (hring : s'.ring = s.ring) (hcurrent : s'.currentThread = s.currentThread) :
    turns s e s' + ahead t s' ≤ ahead t s + creations s e s' := by
  simp only [turns, ahead, hring, hcurrent, if_true]
  omega

/-- A step that ends with a switch from the current thread. -/
theorem ahead_next {v : Scheduler} (e : Event) (hmem : s.currentThread ∈ s.ring) (hnodup : s.ring.Nodup)
    (hready : Ready t s) (hring : v.ring = s.ring) (hwait : v.waiting t = false)
    (hswitch : v.switch s.currentThread = some s') :
    turns s e s' + ahead t s' ≤ ahead t s + creations s e s' := by
  simp only [switch, bind, Option.bind_eq_some_iff, pure, Option.some.injEq] at hswitch
  obtain ⟨next, hnext, rfl⟩ := hswitch
  rw [hring] at hnext
  have hle := ahead_switch { v with currentThread := next } hmem hnodup hready.1 hwait hnext hring
  have hone : turns s e { v with currentThread := next } ≤ 1 := by
    unfold turns
    split_ifs <;> decide
  rw [ahead_of_ready hready]
  omega

theorem ahead_lock (e : Event) (hmem : s.currentThread ∈ s.ring) (hnodup : s.ring.Nodup)
    (hready : Ready t s) {pc : Pc} (hlock : s.lock pc = some s') :
    turns s e s' + ahead t s' ≤ ahead t s + creations s e s' := by
  unfold lock at hlock
  split_ifs at hlock
  · exact ahead_next e hmem hnodup hready rfl hready.2.1 hlock
  · obtain rfl := Option.some.inj hlock
    exact ahead_stay e rfl rfl

theorem ahead_wake (e : Event) {f : SleepEntry → Bool} (hwake : s.wake f = some s') :
    turns s e s' + ahead t s' ≤ ahead t s + creations s e s' := by
  simp only [wake, bind, Option.bind_eq_some_iff, pure, Option.some.injEq] at hwake
  obtain ⟨entry, -, rfl⟩ := hwake
  exact ahead_stay e rfl rfl

/-- The current thread exits. -/
theorem ahead_leave {v : Scheduler} (e : Event) (hnodup : s.ring.Nodup) (hready : Ready t s)
    (hring : v.ring = s.ring.erase s.currentThread) (hwait : v.waiting t = false)
    (hprev : prevThread s.ring s.currentThread = some p) (hswitch : v.switch p = some s') :
    turns s e s' + ahead t s' ≤ ahead t s + creations s e s' := by
  simp only [switch, bind, Option.bind_eq_some_iff, pure, Option.some.injEq] at hswitch
  obtain ⟨next, hnext, rfl⟩ := hswitch
  obtain ⟨hp, hfollowers⟩ := followers_leave hnodup hprev
  have hnodup' := hnodup.erase s.currentThread
  have ht : t ∈ s.ring.erase s.currentThread := (List.mem_erase_of_ne hready.2.2.symm).2 hready.1
  rw [hring] at hnext
  have hle := ahead_switch { v with currentThread := next } hp hnodup' ht hwait hnext hring
  have hone : turns s e { v with currentThread := next } ≤ 1 := by
    unfold turns
    split_ifs <;> decide
  rw [ahead_of_ready hready, hfollowers,
    List.idxOf_append_of_mem ((mem_followers hp hnodup').2 ht)]
  omega

/-- Another thread is destroyed. -/
theorem ahead_destroy {v : Scheduler} (e : Event) (hmem : s.currentThread ∈ s.ring) (hnodup : s.ring.Nodup)
    (hready : Ready t s) (hu : u ≠ s.currentThread) (hring : v.ring = s.ring.erase u)
    (hcurrent : v.currentThread = s.currentThread) :
    turns s e v + ahead t v ≤ ahead t s + creations s e v := by
  have hturns : turns s e v = 0 := if_pos hcurrent
  rw [hturns, ahead_of_ready hready]
  unfold ahead
  split_ifs with hne
  · rw [hring] at hne
    have hle := idxOf_erase hmem hnodup hu hne.1
    rw [hring, hcurrent]
    omega
  · omega

/-- A thread is linked at the end of the ring. -/
theorem ahead_create {v : Scheduler} (hmem : s.currentThread ∈ s.ring) (hready : Ready t s)
    (hring : v.ring = s.ring ++ [u]) (hnodup : v.ring.Nodup) (hcurrent : v.currentThread = s.currentThread) :
    turns s (.call .createThread) v + ahead t v ≤ ahead t s + creations s (.call .createThread) v := by
  have hturns : turns s (.call .createThread) v = 0 := if_pos hcurrent
  have hcreated : creations s (.call .createThread) v = 1 := if_pos rfl
  rw [hring] at hnodup
  rw [hturns, hcreated, ahead_of_ready hready]
  unfold ahead
  split_ifs
  · have hle := idxOf_append hmem hnodup hready.1
    rw [hring, hcurrent]
    omega
  · omega

/-- **Every step** takes the turn it gives to another thread from those ahead of `t`. -/
theorem ahead_step {place : ℕ → Place} {e : Event} (hc : Conserved s place) (hready : Ready t s)
    (hstep : s.step e = some s') : turns s e s' + ahead t s' ≤ ahead t s + creations s e s' := by
  have hmem := hc.runs.mem
  have hnodup : s.ring.Nodup := hc.placed.ringNodup
  have hnext := fun v (hv : v.ring = s.ring) (hw : v.waiting = s.waiting) =>
    @ahead_next s s' t v e hmem hnodup hready hv (hw ▸ hready.2.1)
  cases step_stepped hstep with
  | preempt hswitch => exact hnext s rfl rfl hswitch
  | hpetNone value => exact ahead_stay _ rfl rfl
  | hpet value hwake => exact ahead_wake _ hwake
  | call c hpc hcall =>
    cases hcall with
    | createThread =>
      have hnew : (s.ring ++ [s.created]).Nodup := by
        refine List.nodup_append.2 ⟨hnodup, List.nodup_singleton _, fun a ha b hb => ?_⟩
        rw [List.mem_singleton.1 hb]
        exact (hc.runs.created a ha).ne
      exact ahead_create hmem hready rfl hnew rfl
    | cancelWait id hwake => exact ahead_wake _ hwake
    | waitForNone | waitForThread | waitFemtoseconds | exitThread | destroyThread =>
      exact ahead_stay _ rfl rfl
  | advance hadvance =>
    cases hadvance with
    | wait stage id target hpc hwait =>
      cases hwait with
      | found hlock => exact ahead_lock _ hmem hnodup hready hlock
      | flagged hswitch => exact hnext (s.goto _) rfl rfl hswitch
      | locked | linked | unlocked | yielded => exact ahead_stay _ rfl rfl
    | sleep hpc hswitch => exact hnext (s.goto _) rfl rfl hswitch
    | remove stage remover id hpc hremove =>
      cases hremove with
      | called hlock => exact ahead_lock _ hmem hnodup hready hlock
      | passedAll | woken | passed | cleared | scanned => exact ahead_stay _ rfl rfl
      | exited prev hprev hswitch =>
        refine ahead_leave _ hnodup hready rfl ?_ hprev hswitch
        simp only [setWaiting, Function.update_apply]
        split_ifs
        · rfl
        · exact hready.2.1
      | destroyed u hfind =>
        have hu : u ≠ s.currentThread := hc.distinct.other hmem (by rw [hpc]; rfl) hfind
        exact ahead_destroy _ hmem hnodup hready hu rfl rfl
    | resume | freeStack | freeRecord => exact ahead_stay _ rfl rfl
    | cleaner stage hpc hclean =>
      cases hclean with
      | yield hswitch => exact hnext (s.goto _) rfl rfl hswitch
      | test | take | freeStack | freeRecord | rest => exact ahead_stay _ rfl rfl

/-! ### Runs -/

/-- Interrupts of the timer alone come to every thread that can run, before as many of them as there are
threads, and change nothing but the current thread. -/
theorem preempt_reaches (hmem : s.currentThread ∈ s.ring) (hnodup : s.ring.Nodup) (ht : t ∈ s.ring)
    (hwait : s.waiting t = false) :
    ∃ n ≤ ahead t s, Trace.run step s (.replicate n .preempt) = some { s with currentThread := t } := by
  induction hahead : ahead t s using Nat.strong_induction_on generalizing s with
  | _ k ih =>
    by_cases hcurrent : s.currentThread = t
    · refine ⟨0, Nat.zero_le _, ?_⟩
      rw [List.replicate_zero, Trace.run_nil, ← hcurrent]
    · obtain ⟨q, hnext⟩ : ∃ q, nextThread s.ring s.waiting s.currentThread = some q := by
        refine Option.isSome_iff_exists.1 (List.find?_isSome.2 ⟨t, ?_, by simpa using hwait⟩)
        exact (mem_followers hmem hnodup).2 ht
      have hq : q ∈ s.ring := mem_of_mem_followers (List.mem_of_find?_eq_some hnext)
      have hle := ahead_switch { s with currentThread := q } hmem hnodup ht hwait hnext rfl
      rw [← hahead, ahead_of_ready ⟨ht, hwait, hcurrent⟩] at ih ⊢
      obtain ⟨n, hn, hrun⟩ := ih _ (Nat.lt_succ_of_le hle) (s := { s with currentThread := q }) hq hnodup
        ht hwait rfl
      refine ⟨n + 1, by omega, ?_⟩
      have hstep : s.step .preempt = some { s with currentThread := q } := by
        simp [step, switch, hnext]
      rw [List.replicate_succ, Trace.run_cons, hstep, Option.bind_some, hrun]

/-- **No starvation.** In any part of a run in which a thread of the ring can run and does not, the
processor goes to another thread fewer times than there were threads at its beginning, but for one more
time for each thread created in it. And the timer alone brings the thread to run, with fewer interrupts
than there are threads. -/
theorem no_starvation {s₀ : Scheduler} {before during : List Event} (hstart : s₀.Started)
    (hC : Trace.Along step Targets s₀ (before ++ during)) (hbefore : Trace.run step s₀ before = some s)
    (ht : t ∈ s.ring) (hwait : s.waiting t = false)
    (hready : Trace.Along step (fun s _ => Ready t s) s during)
    (hduring : Trace.run step s during = some s') :
    Trace.total step turns s during < s.ring.length + Trace.total step creations s during ∧
      ∃ n < s.ring.length, Trace.run step s (.replicate n .preempt) =
        some { s with currentThread := t } := by
  have hstep : ∀ s e s', (∃ place, Conserved s place) → Targets s e → s.step e = some s' →
      ∃ place, Conserved s' place := by
    rintro s e s' ⟨place, hc⟩ hC hs
    obtain ⟨place', hc', -⟩ := conserved_step hc hC hs
    exact ⟨place', hc'⟩
  obtain ⟨hCbefore, hCduring⟩ := (Trace.along_append before during s₀).1 hC
  have hinv := Trace.run_invariant_along hstep ⟨_, hstart.conserved⟩ hCbefore hbefore
  have hpotential := Trace.run_potential turns creations (ahead t)
    (C := fun s e => Targets s e ∧ Ready t s)
    (fun s e s' hs hC => hstep s e s' hs hC.1)
    (fun s e s' ⟨place, hc⟩ hC hs => ahead_step hc hC.2 hs) hinv
    ((hCduring s hbefore).and hready) hduring
  obtain ⟨place, hc⟩ := hinv
  have hlt : ahead t s < s.ring.length := ahead_lt hc.runs.mem hc.placed.ringNodup
  refine ⟨by omega, ?_⟩
  obtain ⟨n, hn, hrun⟩ := preempt_reaches hc.runs.mem hc.placed.ringNodup ht hwait
  exact ⟨n, by omega, hrun⟩

/-- Thread 2 is created, and waits while the kernel's thread creates another one and is preempted. -/
theorem no_starvation_preempted :
    ∃ s, Trace.run step boot [.call .createThread] = some s ∧ s.currentThread = 0 ∧
      Trace.total step turns s [.call .createThread, .preempt] <
        s.ring.length + Trace.total step creations s [.call .createThread, .preempt] ∧
      ∃ n < s.ring.length, Trace.run step s (.replicate n .preempt) =
        some { s with currentThread := 2 } := by
  have hC : Trace.Along step Targets boot ([.call .createThread] ++ [.call .createThread, .preempt]) := by
    decide
  obtain ⟨s, s', hbefore, hcurrent, ht, hwait, hready, hduring⟩ :
      ∃ s s', Trace.run step boot [.call .createThread] = some s ∧ s.currentThread = 0 ∧ 2 ∈ s.ring ∧
        s.waiting 2 = false ∧
        Trace.Along step (fun s _ => Ready 2 s) s [.call .createThread, .preempt] ∧
        Trace.run step s [.call .createThread, .preempt] = some s' :=
    ⟨_, _, rfl, rfl, by decide, rfl, by decide, rfl⟩
  exact ⟨s, hbefore, hcurrent, no_starvation started_boot hC hbefore ht hwait hready hduring⟩

end Scheduler

end Naul
