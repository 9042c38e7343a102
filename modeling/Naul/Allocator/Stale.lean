import Naul.Allocator.Disjoint

/-!
# The allocator does not read what was in its memory before

The table is never cleared: below the written slots lie whatever bytes the memory held, and their
`present` flags may read true. `Agree` relates two tables with the same variables and the same
written slots. Each of the five scans stays inside the written slots, or stops when it reaches the
first slot after them whatever that slot holds, so every operation gives the same reply over two
tables that agree and leaves two that agree (`Agree.perform`).

A new record goes to the first free slot, so a slot is written for the first time only when every
written slot holds a present record (`Peaked`): the written slots are as many as the records that
were ever present together.
-/

namespace Naul
namespace Allocator

/-- An operation of the allocator. -/
inductive Op
  | markUnusable (start end' : UInt64)
  | allocate (amount : UInt64)
  | allocateAligned (amount alignment : UInt64)
  | unallocate (pointer : UInt64)
  | getUsage

/-- What an operation returns, if anything, and the table after it. -/
def Op.perform (fuel : ℕ) (t : Allocator) : Op → Option (Option UInt64 × Allocator)
  | .markUnusable start end' => (t.markUnusable fuel start end').map fun t' => (none, t')
  | .allocate amount => (t.allocate fuel amount).map fun r => (some r.1, r.2)
  | .allocateAligned amount alignment =>
    (t.allocateAligned fuel amount alignment).map fun r => (some r.1, r.2)
  | .unallocate pointer => (t.unallocate fuel pointer).map fun t' => (none, t')
  | .getUsage => (t.getUsage fuel).map fun size => (some size, t)

/-- The operations considered: an allocation or a free is permitted as a `Call`. -/
def Op.Permitted (t : Allocator) : Op → Prop
  | .markUnusable _ _ => True
  | .allocate amount => (Call.allocate amount).Permitted t
  | .allocateAligned amount alignment => (Call.allocateAligned amount alignment).Permitted t
  | .unallocate pointer => (Call.unallocate pointer).Permitted t
  | .getUsage => True

/-- A run so far: the table, what the operations returned, and the largest number of records that
were present at one time. -/
structure History where
  table : Allocator
  replies : List (Option UInt64)
  peak : ℕ

/-- The start of a run over memory with contents `memory`. -/
def History.init (memory : ℕ → Allocation) : History := ⟨initAllocator memory, [], 0⟩

def Op.step (fuel : ℕ) (s : History) (op : Op) : Option History :=
  (op.perform fuel s.table).map fun r =>
    ⟨r.2, s.replies ++ [r.1], max s.peak r.2.live.card⟩

/-- Two tables with the same variables and the same written slots. -/
structure Agree (t u : Allocator) : Prop where
  slots : ∀ i < t.written, t.allocated i = u.allocated i
  allocations_eq : t.allocations = u.allocations
  unusable_eq : t.unusable = u.unusable
  written_eq : t.written = u.written

section Agreement

variable {t t' u : Allocator} {fuel slot : ℕ}

theorem agree_init (memory memory' : ℕ → Allocation) :
    Agree (initAllocator memory) (initAllocator memory') where
  slots := fun i hi => absurd hi (Nat.not_lt_zero i)
  allocations_eq := rfl
  unusable_eq := rfl
  written_eq := rfl

theorem Agree.live (h : Agree t u) : t.live = u.live := by
  ext i
  rw [mem_live, mem_live, ← h.written_eq]
  refine and_congr_right fun hi => ?_
  rw [h.slots i hi]

theorem Agree.counted (h : Agree t u) (ht : Counted t) : Counted u := by
  unfold Counted at ht ⊢
  rw [← h.live, ← h.allocations_eq, ht]

/-- Writing the same record in the same slot keeps two tables in agreement. -/
theorem Agree.store (h : Agree t u) (hslot : slot ≤ t.written) (r : Allocation) :
    Agree (t.store slot r) (u.store slot r) where
  slots := by
    intro i hi
    by_cases his : i = slot
    · subst his
      simp [Allocator.store]
    · have hlt : i < t.written := by
        simp only [Allocator.store] at hi
        omega
      simp [Allocator.store, Function.update_of_ne his, h.slots i hlt]
  allocations_eq := h.allocations_eq
  unusable_eq := h.unusable_eq
  written_eq := by simp [Allocator.store, h.written_eq]

/-! ### The scans -/

theorem Agree.emptySlot (h : Agree t u) (ht : Counted t) (fuel : ℕ) :
    t.emptySlot fuel = u.emptySlot fuel := by
  refine WhileLoop.run_congr (I := ScanInv t) (fun s s' hs hb => (scanInv_step ht hs hb).1)
    (fun s hs => ?_) scanInv_start fuel
  by_cases hne : s.count = t.allocations
  · -- the count stops the scan, whatever the slot holds
    simp [slotBody, ← h.allocations_eq, hne]
  · have hlt := lt_written_of_ne ht hs.1 (hs.2 ▸ hne)
    simp only [slotBody, h.slots _ hlt, h.allocations_eq]

theorem Agree.findAddress (h : Agree t u) (ht : Counted t) (fuel : ℕ) (amount : UInt64)
    (p : Placement) : t.findAddress fuel amount p = u.findAddress fuel amount p := by
  refine WhileLoop.run_congr (I := SearchInv t amount p)
    (fun s s' hs hb => searchInv_step ht hs hb) (fun s hs => ?_) (searchInv_start amount p) fuel
  by_cases hne : s.count = t.allocations
  · simp [searchBody, ← h.allocations_eq, hne]
  · have hlt := lt_written_of_ne ht hs.le_written (hs.count_eq ▸ hne)
    simp only [searchBody, h.slots _ hlt, h.allocations_eq]

/-- The scan for a live pointer ends at its record at the latest. -/
theorem Agree.matchSlot (h : Agree t u) {i : ℕ} (hi : i ∈ t.live) (fuel : ℕ) :
    t.matchSlot fuel (t.allocated i).start = u.matchSlot fuel (t.allocated i).start := by
  obtain ⟨hlt, hp⟩ := mem_live.1 hi
  refine WhileLoop.run_congr (I := fun n => n ≤ i) (fun n n' hn hb => (matchBody_step hp hn hb).1)
    (fun n hn => ?_) (Nat.zero_le i) fuel
  have hn' : n < t.written := by omega
  simp only [matchBody, h.slots n hn']

theorem Agree.getUsage (h : Agree t u) (ht : Counted t) (fuel : ℕ) :
    t.getUsage fuel = u.getUsage fuel := by
  refine WhileLoop.run_congr (I := TallyInv t) (fun s s' hs hb => (tallyInv_step ht hs hb).1)
    (fun s hs => ?_) tallyInv_start fuel
  by_cases hne : s.count = t.allocations
  · simp [usageBody, ← h.allocations_eq, hne, h.unusable_eq]
  · have hlt := lt_written_of_ne ht hs.1 (hs.2 ▸ hne)
    simp only [usageBody, h.slots _ hlt, h.allocations_eq, h.unusable_eq]

/-! ### The operations -/

theorem Agree.markUnusable (h : Agree t u) (ht : Counted t) {start end' : UInt64}
    (hstep : t.markUnusable fuel start end' = some t') :
    ∃ u', u.markUnusable fuel start end' = some u' ∧ Agree t' u' := by
  simp only [Allocator.markUnusable, bind, Option.bind_eq_some_iff, pure, Option.some.injEq]
    at hstep ⊢
  obtain ⟨slot, hslot, rfl⟩ := hstep
  refine ⟨_, ⟨slot, (h.emptySlot ht fuel).symm.trans hslot, rfl⟩, ?_⟩
  exact { h.store (emptySlot_spec ht hslot).1 _ with
    allocations_eq := congrArg (· + 1) h.allocations_eq
    unusable_eq := congrArg (· + (end' - start)) h.unusable_eq }

theorem Agree.reserve (h : Agree t u) (ht : Counted t) {amount value : UInt64} {p : Placement}
    (hstep : t.reserve fuel amount p = some (value, t')) :
    ∃ u', u.reserve fuel amount p = some (value, u') ∧ Agree t' u' := by
  simp only [Allocator.reserve, bind, Option.bind_eq_some_iff, pure, Option.some.injEq,
    Prod.mk.injEq] at hstep ⊢
  obtain ⟨v, hv, slot, hslot, rfl, rfl⟩ := hstep
  refine ⟨_, ⟨v, (h.findAddress ht fuel amount p).symm.trans hv, slot,
    (h.emptySlot ht fuel).symm.trans hslot, rfl, rfl⟩, ?_⟩
  exact { h.store (emptySlot_spec ht hslot).1 _ with
    allocations_eq := congrArg (· + 1) h.allocations_eq }

theorem Agree.unallocate (h : Agree t u) {pointer : UInt64}
    (hp : (Call.unallocate pointer).Permitted t) (hstep : t.unallocate fuel pointer = some t') :
    ∃ u', u.unallocate fuel pointer = some u' ∧ Agree t' u' := by
  obtain ⟨i, hi, rfl⟩ := hp
  simp only [Allocator.unallocate, bind, Option.bind_eq_some_iff, pure, Option.some.injEq]
    at hstep ⊢
  obtain ⟨slot, hslot, rfl⟩ := hstep
  have hlt : slot < t.written := lt_of_le_of_lt (matchSlot_le (mem_live.1 hi).2 hslot) (mem_live.1 hi).1
  refine ⟨_, ⟨slot, (h.matchSlot hi fuel).symm.trans hslot, rfl⟩, ?_⟩
  rw [release, release, ← h.slots slot hlt]
  exact { h.store hlt.le _ with allocations_eq := congrArg (· - 1) h.allocations_eq }

/-- Over tables that agree an operation gives the same reply and leaves tables that agree. -/
theorem Agree.perform (h : Agree t u) (ht : Counted t) {op : Op} (hop : op.Permitted t)
    {r : Option UInt64} (hstep : op.perform fuel t = some (r, t')) :
    ∃ u', op.perform fuel u = some (r, u') ∧ Agree t' u' := by
  cases op with
  | markUnusable start end' =>
    obtain ⟨t₁, hmark, heq⟩ := Option.map_eq_some_iff.1 hstep
    cases heq
    obtain ⟨u', hu, hagree⟩ := h.markUnusable ht hmark
    exact ⟨u', by simp [Op.perform, hu], hagree⟩
  | allocate amount =>
    obtain ⟨⟨v, t₁⟩, hres, heq⟩ := Option.map_eq_some_iff.1 hstep
    cases heq
    obtain ⟨u', hu, hagree⟩ := h.reserve ht hres
    exact ⟨u', by simp [Op.perform, allocate, hu], hagree⟩
  | allocateAligned amount alignment =>
    obtain ⟨⟨v, t₁⟩, hres, heq⟩ := Option.map_eq_some_iff.1 hstep
    cases heq
    obtain ⟨u', hu, hagree⟩ := h.reserve ht hres
    exact ⟨u', by simp [Op.perform, allocateAligned, hu], hagree⟩
  | unallocate pointer =>
    obtain ⟨t₁, hfree, heq⟩ := Option.map_eq_some_iff.1 hstep
    cases heq
    obtain ⟨u', hu, hagree⟩ := h.unallocate hop hfree
    exact ⟨u', by simp [Op.perform, hu], hagree⟩
  | getUsage =>
    obtain ⟨size, husage, heq⟩ := Option.map_eq_some_iff.1 hstep
    cases heq
    exact ⟨u, by simp [Op.perform, ← h.getUsage ht fuel, husage], h⟩

end Agreement

/-! ### The peak -/

section Peak

variable {t t' : Allocator} {fuel slot : ℕ}

theorem card_live_le (t : Allocator) : t.live.card ≤ t.written := by
  calc t.live.card ≤ (Finset.range t.written).card := Finset.card_filter_le _ _
    _ = t.written := Finset.card_range _

/-- A slot after the written ones is taken only when every written slot holds a present record. -/
theorem max_written_emptySlot (ht : Counted t) (hslot : t.emptySlot fuel = some slot) :
    max t.written (slot + 1) = max t.written (t.live.card + 1) := by
  obtain ⟨hle, hfresh⟩ := emptySlot_spec ht hslot
  rcases Nat.lt_or_eq_of_le hle with hlt | rfl
  · have hsub : insert slot t.live ⊆ Finset.range t.written := by
      intro i hi
      rcases Finset.mem_insert.1 hi with rfl | hi
      · exact Finset.mem_range.2 hlt
      · exact Finset.mem_range.2 (mem_live.1 hi).1
    have hcard := Finset.card_le_card hsub
    rw [Finset.card_insert_of_notMem hfresh, Finset.card_range] at hcard
    rw [max_eq_left hlt, max_eq_left hcard]
  · have hfull : Finset.range t.written ⊆ t.live := fun i hi =>
      emptySlot_prefix ht hslot i (Finset.mem_range.1 hi)
    have hcard := Finset.card_le_card hfull
    rw [Finset.card_range] at hcard
    rw [le_antisymm (card_live_le t) hcard]

/-- The counter is right, and as many slots are written as records were ever present together. -/
structure Peaked (s : History) : Prop where
  counted : Counted s.table
  written_eq : s.table.written = s.peak

theorem peaked_init (memory : ℕ → Allocation) : Peaked (History.init memory) where
  counted := counted_initAllocator memory
  written_eq := rfl

/-- A new record raises the number of written slots to the number of present records, when it is
smaller. -/
theorem Recorded.written {r : Allocation} (h : Recorded t slot r t') (ht : Counted t)
    (hslot : t.emptySlot fuel = some slot) (hwritten : t'.written = max t.written (slot + 1)) :
    Counted t' ∧ t'.written = max t.written t'.live.card := by
  refine ⟨h.counted ht, ?_⟩
  rw [hwritten, max_written_emptySlot ht hslot, h.live_eq, Finset.card_insert_of_notMem h.fresh]

theorem reserve_written (ht : Counted t) {amount value : UInt64} {p : Placement}
    (h : t.reserve fuel amount p = some (value, t')) :
    Counted t' ∧ t'.written = max t.written t'.live.card := by
  obtain ⟨slot, -, hslot, hrec⟩ := reserve_recorded ht h
  refine hrec.written ht hslot ?_
  simp only [reserve, bind, Option.bind_eq_some_iff, pure, Option.some.injEq, Prod.mk.injEq] at h
  obtain ⟨v, -, slot', hslot', -, rfl⟩ := h
  obtain rfl := Option.some.inj (hslot.symm.trans hslot')
  rfl

theorem markUnusable_written (ht : Counted t) {start end' : UInt64}
    (h : t.markUnusable fuel start end' = some t') :
    Counted t' ∧ t'.written = max t.written t'.live.card := by
  simp only [markUnusable, bind, Option.bind_eq_some_iff, pure, Option.some.injEq] at h
  obtain ⟨slot, hslot, rfl⟩ := h
  obtain ⟨hle, hfresh⟩ := emptySlot_spec ht hslot
  exact (recorded_store (r := ⟨true, start, end'⟩) hle hfresh rfl _).written ht hslot rfl

theorem unallocate_written (ht : Counted t) {pointer : UInt64}
    (hp : (Call.unallocate pointer).Permitted t) (h : t.unallocate fuel pointer = some t') :
    Counted t' ∧ t'.written = max t.written t'.live.card := by
  obtain ⟨i, hi, hstart⟩ := hp
  obtain ⟨slot, hrel, rfl, -⟩ := unallocate_released hi hstart h
  refine ⟨hrel.counted ht, ?_⟩
  have hcard : (t.release slot).live.card ≤ t.written := by
    rw [hrel.live_eq]
    exact (Finset.card_erase_le).trans (card_live_le t)
  rw [max_eq_left hcard]
  exact max_eq_left (mem_live.1 hrel.mem).1

/-- After every operation the counter is right, and the written slots are as many as before or as
many as the present records. -/
theorem Op.perform_written (ht : Counted t) {op : Op} (hop : op.Permitted t) {r : Option UInt64}
    (hstep : op.perform fuel t = some (r, t')) :
    Counted t' ∧ t'.written = max t.written t'.live.card := by
  cases op with
  | markUnusable start end' =>
    obtain ⟨t₁, hmark, heq⟩ := Option.map_eq_some_iff.1 hstep
    cases heq
    exact markUnusable_written ht hmark
  | allocate amount =>
    obtain ⟨⟨v, t₁⟩, hres, heq⟩ := Option.map_eq_some_iff.1 hstep
    cases heq
    exact reserve_written ht hres
  | allocateAligned amount alignment =>
    obtain ⟨⟨v, t₁⟩, hres, heq⟩ := Option.map_eq_some_iff.1 hstep
    cases heq
    exact reserve_written ht hres
  | unallocate pointer =>
    obtain ⟨t₁, hfree, heq⟩ := Option.map_eq_some_iff.1 hstep
    cases heq
    exact unallocate_written ht hop hfree
  | getUsage =>
    obtain ⟨size, husage, heq⟩ := Option.map_eq_some_iff.1 hstep
    cases heq
    exact ⟨ht, (max_eq_left (card_live_le t)).symm⟩

theorem Peaked.step {s s' : History} (h : Peaked s) {op : Op} (hop : op.Permitted s.table)
    (hstep : op.step fuel s = some s') : Peaked s' := by
  obtain ⟨⟨r, t'⟩, hperform, rfl⟩ := Option.map_eq_some_iff.1 hstep
  obtain ⟨hcounted, hwritten⟩ := Op.perform_written h.counted hop hperform
  exact ⟨hcounted, by rw [hwritten, h.written_eq]⟩

end Peak

/-! ### Runs -/

section Runs

variable {t : Allocator} {s s' u : History}

/-- A permitted operation returns. -/
theorem Op.perform_total (ht : Counted t) {op : Op} (hop : op.Permitted t) :
    ∃ fuel r t', op.perform fuel t = some (r, t') := by
  cases op with
  | markUnusable start end' =>
    obtain ⟨fuel, t', h⟩ := markUnusable_total ht start end'
    exact ⟨fuel, none, t', by simp [Op.perform, h]⟩
  | allocate amount =>
    obtain ⟨fuel, value, t', h⟩ := reserve_total ht plain_advances hop.2
    exact ⟨fuel, some value, t', by simp [Op.perform, Allocator.allocate, h]⟩
  | allocateAligned amount alignment =>
    obtain ⟨fuel, value, t', h⟩ := reserve_total ht (aligned_advances alignment) hop.2.2
    exact ⟨fuel, some value, t', by simp [Op.perform, Allocator.allocateAligned, h]⟩
  | unallocate pointer =>
    obtain ⟨i, hi, rfl⟩ := hop
    obtain ⟨fuel, t', h⟩ := unallocate_total hi
    exact ⟨fuel, none, t', by simp [Op.perform, h]⟩
  | getUsage =>
    obtain ⟨fuel, size, h⟩ := getUsage_total ht
    exact ⟨fuel, some size, t, by simp [Op.perform, h]⟩

theorem Op.step_mono : Trace.FuelMono Op.step := by
  intro m n s op s' hmn h
  obtain ⟨⟨r, t'⟩, hperform, rfl⟩ := Option.map_eq_some_iff.1 h
  refine Option.map_eq_some_iff.2 ⟨(r, t'), ?_, rfl⟩
  cases op with
  | markUnusable start end' =>
    obtain ⟨t₁, hmark, heq⟩ := Option.map_eq_some_iff.1 hperform
    exact Option.map_eq_some_iff.2 ⟨t₁, markUnusable_mono hmn hmark, heq⟩
  | allocate amount =>
    obtain ⟨res, hres, heq⟩ := Option.map_eq_some_iff.1 hperform
    exact Option.map_eq_some_iff.2 ⟨res, reserve_mono hmn hres, heq⟩
  | allocateAligned amount alignment =>
    obtain ⟨res, hres, heq⟩ := Option.map_eq_some_iff.1 hperform
    exact Option.map_eq_some_iff.2 ⟨res, reserve_mono hmn hres, heq⟩
  | unallocate pointer =>
    obtain ⟨t₁, hfree, heq⟩ := Option.map_eq_some_iff.1 hperform
    exact Option.map_eq_some_iff.2 ⟨t₁, unallocate_mono hmn hfree, heq⟩
  | getUsage =>
    obtain ⟨size, husage, heq⟩ := Option.map_eq_some_iff.1 hperform
    exact Option.map_eq_some_iff.2 ⟨size, WhileLoop.run_mono hmn husage, heq⟩

/-- Two runs over tables that agree stay in step. -/
theorem Agree.step (h : Agree s.table u.table) (hreplies : s.replies = u.replies)
    (hpeak : s.peak = u.peak) (ht : Counted s.table) {fuel : ℕ} {op : Op}
    (hop : op.Permitted s.table) (hstep : op.step fuel s = some s') :
    ∃ u', op.step fuel u = some u' ∧ Agree s'.table u'.table ∧ s'.replies = u'.replies ∧
      s'.peak = u'.peak := by
  obtain ⟨⟨r, t'⟩, hperform, rfl⟩ := Option.map_eq_some_iff.1 hstep
  obtain ⟨t'', hu, hagree⟩ := h.perform ht hop hperform
  refine ⟨_, Option.map_eq_some_iff.2 ⟨(r, t''), hu, rfl⟩, hagree, ?_, ?_⟩
  · rw [hreplies]
  · rw [hpeak, hagree.live]

theorem Agree.run (h : Agree s.table u.table) (hreplies : s.replies = u.replies)
    (hpeak : s.peak = u.peak) (hs : Peaked s) {fuel : ℕ} {ops : List Op}
    (hops : Trace.Along (Op.step fuel) (fun s op => op.Permitted s.table) s ops)
    (hrun : Trace.run (Op.step fuel) s ops = some s') :
    ∃ u', Trace.run (Op.step fuel) u ops = some u' ∧ Agree s'.table u'.table ∧
      s'.replies = u'.replies ∧ s'.peak = u'.peak := by
  induction ops generalizing s u with
  | nil =>
    rw [Trace.run_nil, Option.some.injEq] at hrun
    subst hrun
    exact ⟨u, rfl, h, hreplies, hpeak⟩
  | cons op ops ih =>
    rw [Trace.run_cons] at hrun
    obtain ⟨s₁, hstep, hrest⟩ := Option.bind_eq_some_iff.1 hrun
    obtain ⟨u₁, hu, h₁, hreplies₁, hpeak₁⟩ := h.step hreplies hpeak hs.counted hops.1 hstep
    rw [Trace.run_cons, hu, Option.bind_some]
    exact ih h₁ hreplies₁ hpeak₁ (hs.step hops.1 hstep) (hops.2 s₁ hstep) hrest

/-- **Stale memory is never read.** Over any two contents of the memory, a run of permitted
operations returns, gives the same replies, and writes as many slots, from the top, as the largest
number of records present at one time. -/
theorem run_independent_of_memory (memory memory' : ℕ → Allocation) {ops : List Op}
    (hops : ∀ fuel, Trace.Along (Op.step fuel) (fun s op => op.Permitted s.table)
      (History.init memory) ops) :
    ∃ n, ∀ fuel, n ≤ fuel → ∃ s s', Trace.run (Op.step fuel) (History.init memory) ops = some s ∧
      Trace.run (Op.step fuel) (History.init memory') ops = some s' ∧ s.replies = s'.replies ∧
      s.table.written = s.peak ∧ s'.table.written = s'.peak ∧ s.peak = s'.peak := by
  have hpeaked : ∀ n (s : History) (op : Op) (s' : History), Peaked s → op.Permitted s.table →
      op.step n s = some s' → Peaked s' := fun _ _ _ _ hs hop hstep => hs.step hop hstep
  have hprog : ∀ (s : History) (op : Op), Peaked s → op.Permitted s.table →
      ∃ n s', op.step n s = some s' := by
    intro s op hs hop
    obtain ⟨fuel, r, t', h⟩ := Op.perform_total hs.counted hop
    exact ⟨fuel, _, Option.map_eq_some_iff.2 ⟨(r, t'), h, rfl⟩⟩
  obtain ⟨n, s, hrun⟩ := Trace.run_total Op.step_mono hprog hpeaked (peaked_init memory)
    (m := 0) (fun n _ => hops n)
  refine ⟨n, fun fuel hn => ?_⟩
  have hrun' := Trace.run_mono Op.step_mono hn hrun
  have hinit : Agree (History.init memory).table (History.init memory').table :=
    agree_init memory memory'
  obtain ⟨s', hs', hagree, hreplies, hpeak⟩ :=
    hinit.run rfl rfl (peaked_init memory) (hops fuel) hrun'
  have hs := Trace.run_invariant_along (hpeaked fuel) (peaked_init memory) (hops fuel) hrun'
  refine ⟨s, s', hrun', hs', hreplies, hs.written_eq, ?_, hpeak⟩
  rw [← hagree.written_eq, hs.written_eq, hpeak]

/-- One region, an allocation, its freeing and another allocation, over memory that reads as present
records and over memory that reads as zeros. -/
theorem run_independent_of_memory_boot :
    ∃ n, ∀ fuel, n ≤ fuel → ∃ s s',
      Trace.run (Op.step fuel) (History.init fun _ => ⟨true, 7, 9⟩)
        [.markUnusable 0x1000000 0x1002000, .allocate 16, .unallocate 0x1002000, .getUsage] = some s ∧
      Trace.run (Op.step fuel) (History.init fun _ => ⟨false, 0, 0⟩)
        [.markUnusable 0x1000000 0x1002000, .allocate 16, .unallocate 0x1002000, .getUsage] = some s' ∧
      s.replies = s'.replies ∧ s.table.written = s.peak ∧ s'.table.written = s'.peak ∧
      s.peak = s'.peak := by
  refine run_independent_of_memory _ _ fun fuel => Trace.along_of_run Op.step_mono (n := 9) rfl ?_ fuel
  refine ⟨trivial, fun s hs => ?_⟩
  cases hs
  refine ⟨⟨@sumsFit_of_trail _ 9 _ _ _ rfl (by decide), nextFits_plain _ _⟩, fun s hs => ?_⟩
  cases hs
  refine ⟨⟨1, by decide, rfl⟩, fun s hs => ?_⟩
  cases hs
  exact ⟨trivial, fun _ _ => trivial⟩

/-- The same run with fuel `9`: the freed slot is read by `getUsage` and counts nothing. -/
example : (Trace.run (Op.step 9) (History.init fun _ => ⟨true, 7, 9⟩)
    [.markUnusable 0x1000000 0x1002000, .allocate 16, .unallocate 0x1002000, .getUsage]).map
      (fun s => (s.replies, s.table.written)) =
    some ([none, some 0x1002000, none, some 0], 2) := by decide

end Runs

end Allocator
end Naul
