import Naul.Hpet.Deadlines

/-!
# The comparator and the list

Here a critical section is one step, and the counter may read anything in each of them. Three functions
change the sleeping list, and each of them ends in `updateTimer`, except for an interrupt that finds no
entry equal to the comparator, which changes nothing. So the comparator always belongs to the list
(`Armed`), and after a change it is for the entry that is soonest from the counter as it was read:
`comparator_follows`.
-/

namespace Naul

open LinkRing

namespace Hpet

/-- The critical sections. `counter` is what the counter reads when the deadline is computed, and `value`
what it reads in `updateTimer`; `entry` is the address of the entry on the stack of `thread`. -/
inductive Operation
  | waitFemtoseconds (entry thread femtoseconds counter value : UInt64)
  | cancelWait (id value : UInt64)
  | hpet (value : UInt64)

/-- The counter as `updateTimer` reads it. -/
def Operation.value : Operation → UInt64
  | .waitFemtoseconds _ _ _ _ value | .cancelWait _ value | .hpet value => value

/-- One critical section, from `cli` to `sti`. -/
def Operation.step (femtosecondsPerTick : UInt64) (fuel : ℕ) (h : Hpet) : Operation → Option Hpet
  | .waitFemtoseconds entry thread femtoseconds counter value =>
    h.waitFemtoseconds fuel entry ⟨sleepTime femtoseconds femtosecondsPerTick counter, thread⟩ value
  | .cancelWait id value => h.cancelWait fuel id value
  | .hpet value => h.hpet fuel value

/-- An entry that is linked is not in the list yet, and what is cancelled is the sleep of a thread that
sleeps. -/
def Operation.Legal (h : Hpet) (o : Operation) : Prop :=
  ∀ xs, IsRing h.links h.sleepingList xs →
    match o with
    | .waitFemtoseconds entry _ _ _ _ => entry ∉ h.sleepingList :: xs
    | .cancelWait id _ => ∃ x ∈ xs, h.id (h.entry x).thread = id
    | .hpet _ => True

/-- The comparator holds the deadline of an entry of the list. -/
def Armed (h : Hpet) (xs : List UInt64) : Prop := xs ≠ [] → ∃ x ∈ xs, h.comparator = (h.entry x).time

/-- The comparator holds the deadline that is least, counted from `value` round the counter. -/
def ArmedSoonest (h : Hpet) (xs : List UInt64) (value : UInt64) : Prop :=
  ∃ x ∈ xs, h.comparator = (h.entry x).time ∧
    ∀ y ∈ xs, ((h.entry x).time - value).toNat ≤ ((h.entry y).time - value).toNat

variable {h h' : Hpet} {xs ys : List UInt64} {o : Operation} {femtosecondsPerTick value : UInt64} {m n : ℕ}

theorem ArmedSoonest.armed (harmed : ArmedSoonest h xs value) : Armed h xs := by
  obtain ⟨x, hx, hcomparator, -⟩ := harmed
  exact fun _ => ⟨x, hx, hcomparator⟩

/-- `updateTimer` arms the timer for the soonest entry. -/
theorem armedSoonest_update (h : Hpet) (value comparator : UInt64) (hne : xs ≠ []) :
    ArmedSoonest { h with comparator := comparatorFor value (xs.map h.entry) comparator } xs value := by
  obtain ⟨e, he, hcomparator, hleast⟩ := Sleepers.exists_comparatorFor value comparator
    (by simpa using hne : xs.map h.entry ≠ [])
  obtain ⟨x, hx, rfl⟩ := List.mem_map.1 he
  exact ⟨x, hx, hcomparator, fun y hy => hleast _ (List.mem_map_of_mem hy)⟩

theorem step_mono (hmn : m ≤ n) (hstep : o.step femtosecondsPerTick m h = some h') :
    o.step femtosecondsPerTick n h = some h' := by
  cases o with
  | waitFemtoseconds entry thread femtoseconds counter value => exact updateTimer_mono hmn hstep
  | cancelWait id value =>
    simp only [Operation.step, Hpet.cancelWait, bind, Option.bind_eq_some_iff] at hstep ⊢
    obtain ⟨entry, hfind, hupdate⟩ := hstep
    exact ⟨entry, WhileLoop.run_mono hmn hfind, updateTimer_mono hmn hupdate⟩
  | hpet value =>
    simp only [Operation.step, Hpet.hpet, bind, Option.bind_eq_some_iff] at hstep ⊢
    obtain ⟨entry, hfind, hupdate⟩ := hstep
    refine ⟨entry, WhileLoop.run_mono hmn hfind, ?_⟩
    split_ifs at hupdate ⊢ with hhead
    · exact updateTimer_mono hmn hupdate
    · exact hupdate

theorem exists_first {p : UInt64 → Prop} [DecidablePred p] (hex : ∃ x ∈ xs, p x) :
    ∃ ys a zs, xs = ys ++ a :: zs ∧ (∀ y ∈ ys, ¬ p y) ∧ p a := by
  obtain ⟨x, hx, hp⟩ := hex
  obtain ⟨a, ys, zs, hys, ha, hxs, -⟩ := List.exists_of_eraseP hx (p := fun x => decide (p x))
    (decide_eq_true hp)
  exact ⟨ys, a, zs, hxs, fun y hy => by simpa using hys y hy, by simpa using ha⟩

/-- What a critical section does: it returns with a list, and unless it has changed nothing, the timer is
armed for the soonest entry. -/
theorem operation_spec (hring : IsRing h.links h.sleepingList xs) (hlegal : o.Legal h)
    (femtosecondsPerTick : UInt64) :
    ∃ n h' ys, o.step femtosecondsPerTick n h = some h' ∧ IsRing h'.links h'.sleepingList ys ∧
      (h' = h ∧ ys = xs ∨ (ys ≠ [] → ArmedSoonest h' ys o.value)) := by
  have hlegal := hlegal xs hring
  cases o with
  | waitFemtoseconds entry thread femtoseconds counter value =>
    have hupdate := waitFemtoseconds_eq hring hlegal
      ⟨sleepTime femtoseconds femtosecondsPerTick counter, thread⟩ value
    rw [← map_sleep_entry (fun hmem => hlegal (List.mem_cons_of_mem _ hmem))] at hupdate
    exact ⟨_, _, _, hupdate,
      isRing_sleep hring hlegal ⟨sleepTime femtoseconds femtosecondsPerTick counter, thread⟩,
      Or.inr fun hne => armedSoonest_update (h.sleep entry _) value _ hne⟩
  | cancelWait id value =>
    obtain ⟨ys, a, zs, rfl, hys, ha⟩ := exists_first hlegal
    exact ⟨_, _, _, cancelWait_eq hring hys ha value, isRing_wake hring,
      Or.inr fun hne => armedSoonest_update (h.wake a) value _ hne⟩
  | hpet value =>
    -- without an entry that is due `hpet` is back at the sentinel, and returns
    by_cases hdue : ∃ x ∈ xs, (h.entry x).time = h.comparator
    · obtain ⟨ys, a, zs, rfl, hys, ha⟩ := exists_first hdue
      exact ⟨_, _, _, hpet_eq hring hys ha value, isRing_wake hring,
        Or.inr fun hne => armedSoonest_update (h.wake a) value _ hne⟩
    · exact ⟨_, h, xs, hpet_absent hring (fun x hx htime => hdue ⟨x, hx, htime⟩) value, hring,
        Or.inl ⟨rfl, rfl⟩⟩

/-- The result of a critical section does not depend on the fuel. -/
theorem step_unique {h₁ h₂ : Hpet} (h₁' : o.step femtosecondsPerTick m h = some h₁)
    (h₂' : o.step femtosecondsPerTick n h = some h₂) : h₁ = h₂ :=
  Option.some.inj ((step_mono (le_max_left m n) h₁').symm.trans (step_mono (le_max_right m n) h₂'))

/-- **The comparator follows the list.** In every state of a run that starts with no entries the comparator
holds the deadline of an entry, if there is one; and every further critical section returns, and where it
has changed the list and left an entry, the comparator holds the deadline that is soonest from the counter
as it was read. -/
theorem comparator_follows {fuel : ℕ} {operations : List Operation}
    (hring : IsRing h.links h.sleepingList [])
    (hlegal : Trace.Along (Operation.step femtosecondsPerTick fuel) Operation.Legal h operations)
    (hrun : Trace.run (Operation.step femtosecondsPerTick fuel) h operations = some h') :
    ∃ xs, IsRing h'.links h'.sleepingList xs ∧ Armed h' xs ∧
      ∀ o : Operation, o.Legal h' → ∃ n t ys, o.step femtosecondsPerTick n h' = some t ∧
        IsRing t.links t.sleepingList ys ∧ Armed t ys ∧
        (ys ≠ xs → ys ≠ [] → ArmedSoonest t ys o.value) := by
  -- one critical section, for the steps of the run and for the one after it
  have hspec : ∀ {h xs} {o : Operation}, IsRing h.links h.sleepingList xs → Armed h xs → o.Legal h →
      ∃ n t ys, o.step femtosecondsPerTick n h = some t ∧ IsRing t.links t.sleepingList ys ∧
        Armed t ys ∧ (ys ≠ xs → ys ≠ [] → ArmedSoonest t ys o.value) := by
    intro h xs o hring harmed hlegal
    obtain ⟨n, t, ys, hstep, hring', hcases⟩ := operation_spec hring hlegal femtosecondsPerTick
    refine ⟨n, t, ys, hstep, hring', ?_, ?_⟩
    · rcases hcases with ⟨rfl, rfl⟩ | hsoonest
      · exact harmed
      · exact fun hne => (hsoonest hne).armed hne
    · rcases hcases with ⟨-, rfl⟩ | hsoonest
      · exact fun hne => absurd rfl hne
      · exact fun _ hne => hsoonest hne
  have hinv : ∃ xs, IsRing h'.links h'.sleepingList xs ∧ Armed h' xs := by
    refine Trace.run_invariant_along
      (I := fun h : Hpet => ∃ xs, IsRing h.links h.sleepingList xs ∧ Armed h xs)
      (fun h o t hkept hlegal hstep => ?_) ⟨[], hring, fun hne => absurd rfl hne⟩ hlegal hrun
    obtain ⟨xs, hring, harmed⟩ := hkept
    obtain ⟨n, u, ys, hstep', hring', harmed', -⟩ := hspec hring harmed hlegal
    obtain rfl := step_unique hstep hstep'
    exact ⟨ys, hring', harmed'⟩
  obtain ⟨xs, hring', harmed⟩ := hinv
  exact ⟨xs, hring', harmed, fun o hlegal => hspec hring' harmed hlegal⟩

/-- Nobody sleeps. -/
def noSleepers : Hpet := ⟨0, emptyRing UInt64, fun _ => ⟨0, 0⟩, fun t => t, fun _ => false, 0⟩

/-- Thread 1 sleeps until the counter is at 15, and thread 2 until it is at 3, round the counter: with the
counter at `2 ^ 64 - 6`, the timer is armed for 3, and after the cancellation of that sleep for 15. -/
theorem comparator_follows_wrapped :
    ∃ h, Trace.run (Operation.step 100 4) noSleepers
        [.waitFemtoseconds 8 1 2000 (-5) (-5), .waitFemtoseconds 9 2 900 (-6) (-6)] = some h ∧
      h.comparator = 3 ∧ ∃ xs, Armed h xs ∧ ∃ n t ys,
        (Operation.cancelWait 2 (-6)).step 100 n h = some t ∧
          (ys ≠ xs → ys ≠ [] → ArmedSoonest t ys (-6)) := by
  have hring : IsRing noSleepers.links noSleepers.sleepingList [] := isRing_emptyRing 0
  have hring₁ := isRing_sleep hring (by decide : (8 : UInt64) ∉ noSleepers.sleepingList :: [])
    ⟨sleepTime 2000 100 (-5), 1⟩
  have hring₂ := isRing_sleep hring₁ (by decide : (9 : UInt64) ∉ noSleepers.sleepingList :: [8])
    ⟨sleepTime 900 100 (-6), 2⟩
  have hlegal : Trace.Along (Operation.step 100 4) Operation.Legal noSleepers
      [.waitFemtoseconds 8 1 2000 (-5) (-5), .waitFemtoseconds 9 2 900 (-6) (-6)] := by
    refine ⟨fun xs hxs => ?_, fun h hstep => ⟨fun xs hxs => ?_, fun _ _ => trivial⟩⟩
    · obtain rfl := isRing_unique hxs hring
      decide
    · cases hstep
      obtain rfl := isRing_unique hxs hring₁
      decide
  obtain ⟨h, hrun⟩ : ∃ h, Trace.run (Operation.step 100 4) noSleepers
      [.waitFemtoseconds 8 1 2000 (-5) (-5), .waitFemtoseconds 9 2 900 (-6) (-6)] = some h := ⟨_, rfl⟩
  obtain ⟨xs, -, harmed, hnext⟩ := comparator_follows hring hlegal hrun
  cases hrun
  refine ⟨_, rfl, by decide, xs, harmed, ?_⟩
  obtain ⟨n, t, ys, hstep, -, -, hsoonest⟩ := hnext (.cancelWait 2 (-6)) fun zs hzs => by
    obtain rfl := isRing_unique hzs hring₂
    exact ⟨9, by decide, by decide⟩
  exact ⟨n, t, ys, hstep, hsoonest⟩

end Hpet

end Naul
