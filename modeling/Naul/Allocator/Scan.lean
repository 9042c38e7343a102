import Naul.Allocator.Table

/-!
# What the allocator's scans find

Every scan keeps a count of the present records it has passed and stops when the count reaches
`allocations`. `Counted` says that this number is right. Under it a scan never leaves the written
slots before it has passed every present record (`lt_written_of_ne`, `live_lt_of_eq`), and

* `emptySlot` returns a slot that holds no present record, at most one past the written ones;
* `findAddress` returns an address whose block meets no present record;
* `matchSlot` returns the first present record with the given start.

Each of the three also returns: `emptySlot_total`, `findAddress_total`, `matchSlot_total`. So does
`getUsage`: `getUsage_total`. `findAddress_within` says how long the search for an address takes.
-/

namespace Naul
namespace Allocator

variable {t : Allocator}

/-- `allocations` is the number of present records. -/
def Counted (t : Allocator) : Prop := t.allocations = t.live.card

theorem counted_initAllocator (memory : ℕ → Allocation) : Counted (initAllocator memory) := by
  rw [Counted, live_initAllocator]
  rfl

theorem presentBelow_succ_of_present {n : ℕ} (h : (t.allocated n).present = true) :
    t.presentBelow (n + 1) = t.presentBelow n + 1 := by
  simp [presentBelow, Nat.count_succ, h]

theorem presentBelow_succ_of_absent {n : ℕ} (h : (t.allocated n).present = false) :
    t.presentBelow (n + 1) = t.presentBelow n := by
  simp [presentBelow, Nat.count_succ, h]

/-- A scan that has not counted every record is still inside the written slots. -/
theorem lt_written_of_ne (ht : Counted t) {n : ℕ} (hn : n ≤ t.written)
    (hne : t.presentBelow n ≠ t.allocations) : n < t.written := by
  rcases Nat.lt_or_eq_of_le hn with hlt | rfl
  · exact hlt
  · exact absurd (ht.trans (card_live t)).symm hne

/-- A scan that has counted every record has passed every record. -/
theorem live_lt_of_eq (ht : Counted t) {n i : ℕ} (heq : t.presentBelow n = t.allocations)
    (hi : i ∈ t.live) : i < n := by
  obtain ⟨hlt, hp⟩ := mem_live.1 hi
  by_contra hni
  have h1 : t.presentBelow n ≤ t.presentBelow i := Nat.count_monotone _ (by omega)
  have h2 : t.presentBelow (i + 1) ≤ t.presentBelow t.written := Nat.count_monotone _ hlt
  have h3 := presentBelow_succ_of_present hp
  have h4 : t.allocations = t.presentBelow t.written := ht.trans (card_live t)
  omega

/-! ### The slot to write -/

/-- The invariant of the scan for an empty slot. -/
def ScanInv (t : Allocator) (s : Scan) : Prop :=
  s.allocation ≤ t.written ∧ s.count = t.presentBelow s.allocation

theorem scanInv_step (ht : Counted t) {s s' : Scan} (hs : ScanInv t s)
    (h : t.slotBody s = .inl s') : ScanInv t s' ∧ t.written - s'.allocation < t.written - s.allocation := by
  obtain ⟨hle, hcount⟩ := hs
  unfold slotBody at h
  split at h
  · rename_i hc
    cases h
    have hlt := lt_written_of_ne ht hle (hcount ▸ hc.2)
    refine ⟨⟨hlt, ?_⟩, ?_⟩
    · rw [presentBelow_succ_of_present hc.1, hcount]
    · dsimp only; omega
  · cases h

theorem scanInv_start : ScanInv t ⟨0, 0⟩ := ⟨Nat.zero_le _, by simp [presentBelow]⟩

/-- The slot found holds no present record and extends the written slots by at most one. -/
theorem emptySlot_spec (ht : Counted t) {fuel slot : ℕ} (h : t.emptySlot fuel = some slot) :
    slot ≤ t.written ∧ slot ∉ t.live := by
  refine WhileLoop.run_invariant (I := ScanInv t) (Q := fun slot => slot ≤ t.written ∧ slot ∉ t.live)
    (fun s s' hs hb => (scanInv_step ht hs hb).1) (fun s r hs hb => ?_) scanInv_start h
  obtain ⟨hle, hcount⟩ := hs
  unfold slotBody at hb
  split at hb
  · cases hb
  · rename_i hc
    cases hb
    refine ⟨hle, fun hlive => ?_⟩
    have heq : s.count = t.allocations := by
      by_contra hne
      exact hc ⟨(mem_live.1 hlive).2, hne⟩
    exact absurd (live_lt_of_eq ht (hcount ▸ heq) hlive) (lt_irrefl _)

/-- Every slot before the one found holds a present record. -/
theorem emptySlot_prefix (ht : Counted t) {fuel slot : ℕ} (h : t.emptySlot fuel = some slot) :
    ∀ i < slot, i ∈ t.live := by
  refine WhileLoop.run_invariant
    (I := fun s => ScanInv t s ∧ ∀ i < s.allocation, (t.allocated i).present = true)
    (Q := fun slot => ∀ i < slot, i ∈ t.live)
    (fun s s' hs hb => ⟨(scanInv_step ht hs.1 hb).1, ?_⟩) (fun s r hs hb i hi => ?_)
    ⟨scanInv_start, fun i hi => absurd hi (Nat.not_lt_zero i)⟩ h
  · unfold slotBody at hb
    split at hb
    · rename_i hc
      cases hb
      intro i hi
      rcases Nat.lt_succ_iff_lt_or_eq.1 hi with hlt | rfl
      · exact hs.2 i hlt
      · exact hc.1
    · cases hb
  · unfold slotBody at hb
    split at hb
    · cases hb
    · cases hb
      exact mem_live.2 ⟨lt_of_lt_of_le hi hs.1.1, hs.2 i hi⟩

theorem emptySlot_total (ht : Counted t) : ∃ fuel slot, t.emptySlot fuel = some slot :=
  WhileLoop.run_total (I := ScanInv t) (fun s : Scan => t.written - s.allocation)
    (fun _ _ hs hb => scanInv_step ht hs hb) scanInv_start

/-! ### The address -/

/-- The states of the search for `amount` bytes. -/
def Searching (t : Allocator) (amount : UInt64) (p : Placement) : Search → Prop :=
  WhileLoop.Visits (t.searchBody amount p.next) ⟨p.first, 0, 0⟩

/-- In state `s` the search looks at a record that is in the way of its candidate. -/
def Blocked (t : Allocator) (amount : UInt64) (s : Search) : Prop :=
  s.count ≠ t.allocations ∧ (t.allocated s.allocation).present = true ∧
    ¬ Clear s.value amount (t.allocated s.allocation)

/-- Slot `i` is the first one whose record is in the way of a block at `v`. -/
structure InWay (t : Allocator) (amount v : UInt64) (i : ℕ) : Prop where
  live : i ∈ t.live
  blocked : ¬ Clear v amount (t.allocated i)
  first : ∀ j ∈ t.live, j < i → Clear v amount (t.allocated j)

/-- The addresses that the search tries: the first one, and the one after the first record that is in the way
of a block at one of them. -/
inductive Candidate (t : Allocator) (p : Placement) (amount : UInt64) : UInt64 → Prop
  | first : Candidate t p amount p.first
  | next {v : UInt64} {i : ℕ} (hv : Candidate t p amount v) (hi : InWay t amount v i) :
      Candidate t p amount (p.next (t.allocated i).end')

/-- No end of candidate the search computes exceeds `2 ^ 64 - 1`. -/
def SumsFit (t : Allocator) (amount : UInt64) (p : Placement) : Prop :=
  ∀ s, Searching t amount p s → s.value.toNat + amount.toNat < 2 ^ 64

/-- No next candidate the search computes exceeds `2 ^ 64 - 1`. -/
def NextFits (t : Allocator) (amount : UInt64) (p : Placement) : Prop :=
  ∀ s, Searching t amount p s → Blocked t amount s → p.Safe (t.allocated s.allocation).end'

/-- The candidate after a record is not below the record's end. -/
def Placement.Advances (p : Placement) : Prop := ∀ e, p.Safe e → e ≤ p.next e

/-- A search that ends can be checked state by state. -/
theorem sumsFit_of_trail {fuel : ℕ} {amount value : UInt64} {p : Placement}
    (h : t.findAddress fuel amount p = some value)
    (hall : ∀ s ∈ WhileLoop.trail (t.searchBody amount p.next) fuel ⟨p.first, 0, 0⟩,
      s.value.toNat + amount.toNat < 2 ^ 64) : SumsFit t amount p :=
  fun s hs => hall s (WhileLoop.mem_trail_of_visits h hs)

theorem searchBody_cases {amount : UInt64} {next : UInt64 → UInt64} {s s' : Search}
    (h : t.searchBody amount next s = .inl s') :
    s.count ≠ t.allocations ∧
      (((t.allocated s.allocation).present = true ∧ Clear s.value amount (t.allocated s.allocation) ∧
          s' = ⟨s.value, s.allocation + 1, s.count + 1⟩) ∨
        (Blocked t amount s ∧ s' = ⟨next (t.allocated s.allocation).end', 0, 0⟩) ∨
        ((t.allocated s.allocation).present = false ∧
          s' = ⟨s.value, s.allocation + 1, s.count⟩)) := by
  unfold searchBody at h
  split_ifs at h with hc hp hclear
  · exact ⟨hc, .inl ⟨hp, hclear, (Sum.inl.inj h).symm⟩⟩
  · exact ⟨hc, .inr (.inl ⟨⟨hc, hp, hclear⟩, (Sum.inl.inj h).symm⟩)⟩
  · exact ⟨hc, .inr (.inr ⟨by simpa using hp, (Sum.inl.inj h).symm⟩)⟩

theorem searchBody_exit {amount : UInt64} {next : UInt64 → UInt64} {s : Search} {v : UInt64}
    (h : t.searchBody amount next s = .inr v) : s.count = t.allocations ∧ v = s.value := by
  unfold searchBody at h
  split_ifs at h with hc
  exact ⟨hc, (Sum.inr.inj h).symm⟩

theorem value_lt_end {value amount : UInt64} {r : Allocation} (h : ¬ Clear value amount r) :
    value < r.end' := by
  rw [Clear, not_or] at h
  exact UInt64.not_le.1 h.2

/-- The invariant of the search: it has counted the records above it, and its candidate is clear of
them. -/
structure SearchInv (t : Allocator) (amount : UInt64) (p : Placement) (s : Search) : Prop where
  visited : Searching t amount p s
  le_written : s.allocation ≤ t.written
  count_eq : s.count = t.presentBelow s.allocation
  clear : ∀ i ∈ t.live, i < s.allocation → Clear s.value amount (t.allocated i)

theorem searchInv_start (amount : UInt64) (p : Placement) :
    SearchInv t amount p ⟨p.first, 0, 0⟩ where
  visited := Relation.ReflTransGen.refl
  le_written := Nat.zero_le _
  count_eq := by simp [presentBelow]
  clear := fun i _ hi => absurd hi (Nat.not_lt_zero i)

theorem searchInv_step (ht : Counted t) {amount : UInt64} {p : Placement} {s s' : Search}
    (hs : SearchInv t amount p s) (h : t.searchBody amount p.next s = .inl s') :
    SearchInv t amount p s' := by
  have hv : Searching t amount p s' := hs.visited.tail h
  obtain ⟨hne, ⟨hp, hclear, rfl⟩ | ⟨-, rfl⟩ | ⟨hp, rfl⟩⟩ := searchBody_cases h
  · have hlt := lt_written_of_ne ht hs.le_written (hs.count_eq ▸ hne)
    refine ⟨hv, hlt, ?_, fun i hi hlt => ?_⟩
    · rw [presentBelow_succ_of_present hp, hs.count_eq]
    · rcases Nat.lt_succ_iff_lt_or_eq.1 hlt with hlt | rfl
      · exact hs.clear i hi hlt
      · exact hclear
  · exact ⟨hv, Nat.zero_le _, by simp [presentBelow], fun i _ hi => absurd hi (Nat.not_lt_zero i)⟩
  · have hlt := lt_written_of_ne ht hs.le_written (hs.count_eq ▸ hne)
    refine ⟨hv, hlt, ?_, fun i hi hlt => ?_⟩
    · rw [presentBelow_succ_of_absent hp, hs.count_eq]
    · rcases Nat.lt_succ_iff_lt_or_eq.1 hlt with hlt | rfl
      · exact hs.clear i hi hlt
      · simp [mem_live, hp] at hi

theorem searchInv_of_searching (ht : Counted t) {amount : UInt64} {p : Placement} {s : Search}
    (h : Searching t amount p s) : SearchInv t amount p s :=
  WhileLoop.Visits.invariant (fun _ _ hs hb => searchInv_step ht hs hb) h (searchInv_start amount p)

/-- The record that a blocked search looks at. -/
theorem live_of_blocked (ht : Counted t) {amount : UInt64} {p : Placement} {s : Search}
    (h : Searching t amount p s) (hb : Blocked t amount s) : s.allocation ∈ t.live := by
  have hinv := searchInv_of_searching ht h
  exact mem_live.2 ⟨lt_written_of_ne ht hinv.le_written (hinv.count_eq ▸ hb.1), hb.2.1⟩

/-- A blocked search looks at the first record in the way of its candidate. -/
theorem SearchInv.inWay (ht : Counted t) {amount : UInt64} {p : Placement} {s : Search}
    (hs : SearchInv t amount p s) (hb : Blocked t amount s) : InWay t amount s.value s.allocation where
  live := live_of_blocked ht hs.visited hb
  blocked := hb.2.2
  first := hs.clear

theorem candidate_of_searching (ht : Counted t) {amount : UInt64} {p : Placement} {s : Search}
    (h : Searching t amount p s) : Candidate t p amount s.value := by
  refine (WhileLoop.Visits.invariant (I := fun s => SearchInv t amount p s ∧ Candidate t p amount s.value)
    (fun s s' hs hb => ⟨searchInv_step ht hs.1 hb, ?_⟩) h ⟨searchInv_start amount p, .first⟩).2
  obtain ⟨-, ⟨-, -, rfl⟩ | ⟨hblocked, rfl⟩ | ⟨-, rfl⟩⟩ := searchBody_cases hb
  · exact hs.2
  · exact .next hs.2 (hs.1.inWay ht hblocked)
  · exact hs.2

/-- The search passes the slots before a record that is in the way. -/
theorem searching_passes (ht : Counted t) {amount v : UInt64} {p : Placement} {i n : ℕ}
    (hi : InWay t amount v i) (h : Searching t amount p ⟨v, 0, 0⟩) (hn : n ≤ i) :
    t.presentBelow n ≠ t.allocations ∧ Searching t amount p ⟨v, n, t.presentBelow n⟩ := by
  have hne : ∀ n ≤ i, t.presentBelow n ≠ t.allocations := fun n hn heq =>
    absurd (live_lt_of_eq ht heq hi.live) (not_lt.2 hn)
  refine ⟨hne n hn, ?_⟩
  induction n with
  | zero => simpa [presentBelow] using h
  | succ n ih =>
    refine Relation.ReflTransGen.tail (ih (by omega)) ?_
    have hcount := hne n (by omega)
    by_cases hp : (t.allocated n).present = true
    · have hlt : n < t.written := lt_trans hn (mem_live.1 hi.live).1
      have hclear := hi.first n (mem_live.2 ⟨hlt, hp⟩) hn
      rw [presentBelow_succ_of_present hp, searchBody, if_neg hcount, if_pos hp, if_pos hclear]
    · rw [presentBelow_succ_of_absent (by simpa using hp), searchBody, if_neg hcount, if_neg hp]

/-- The search comes to every candidate, and there to the first record in the way. -/
theorem exists_blocked (ht : Counted t) {amount v : UInt64} {p : Placement} {i : ℕ}
    (hv : Candidate t p amount v) (hi : InWay t amount v i) :
    ∃ s, Searching t amount p s ∧ Blocked t amount s ∧ s.allocation = i := by
  have hcomes : ∀ {v}, Candidate t p amount v → Searching t amount p ⟨v, 0, 0⟩ := by
    intro v hv
    induction hv with
    | first => exact Relation.ReflTransGen.refl
    | @next v i _ hi ih =>
      obtain ⟨hne, hs⟩ := searching_passes ht hi ih le_rfl
      refine Relation.ReflTransGen.tail hs ?_
      rw [searchBody, if_neg hne, if_pos (mem_live.1 hi.live).2, if_neg hi.blocked]
  obtain ⟨hne, hs⟩ := searching_passes ht hi (hcomes hv) le_rfl
  exact ⟨_, hs, ⟨hne, (mem_live.1 hi.live).2, hi.blocked⟩, rfl⟩

/-- The block at the address found meets no present record. -/
theorem findAddress_clear (ht : Counted t) {fuel : ℕ} {amount value : UInt64} {p : Placement}
    (h : t.findAddress fuel amount p = some value) :
    ∀ i ∈ t.live, Clear value amount (t.allocated i) := by
  refine WhileLoop.run_invariant (I := SearchInv t amount p)
    (Q := fun v => ∀ i ∈ t.live, Clear v amount (t.allocated i))
    (fun s s' hs hb => searchInv_step ht hs hb) (fun s r hs hb => ?_) (searchInv_start amount p) h
  obtain ⟨heq, rfl⟩ := searchBody_exit hb
  exact fun i hi => hs.clear i hi (live_lt_of_eq ht (hs.count_eq ▸ heq) hi)

/-- The address found is one the search visits. -/
theorem findAddress_visited {fuel : ℕ} {amount value : UInt64} {p : Placement}
    (h : t.findAddress fuel amount p = some value) :
    ∃ s, Searching t amount p s ∧ s.value = value := by
  obtain ⟨s, hv, hb⟩ := WhileLoop.run_exit h
  exact ⟨s, hv, (searchBody_exit hb).2.symm⟩

/-- What the first candidate has and every move past a record gives, the address found has. -/
theorem findAddress_of_next {Q : UInt64 → Prop} {fuel : ℕ} {amount value : UInt64} {p : Placement}
    (hfits : NextFits t amount p) (h0 : Q p.first)
    (hnext : ∀ v e, Q v → v < e → p.Safe e → Q (p.next e))
    (h : t.findAddress fuel amount p = some value) : Q value := by
  refine WhileLoop.run_invariant (I := fun s => Searching t amount p s ∧ Q s.value) (Q := Q)
    (fun s s' hs hb => ⟨hs.1.tail hb, ?_⟩) (fun s r hs hb => ?_)
    ⟨Relation.ReflTransGen.refl, h0⟩ h
  · obtain ⟨-, ⟨-, -, rfl⟩ | ⟨hblocked, rfl⟩ | ⟨-, rfl⟩⟩ := searchBody_cases hb
    · exact hs.2
    · exact hnext s.value _ hs.2 (value_lt_end hblocked.2.2) (hfits s hs.1 hblocked)
    · exact hs.2
  · obtain ⟨-, rfl⟩ := searchBody_exit hb
    exact hs.2

/-- The present records that end above `value`. -/
def ahead (t : Allocator) (value : UInt64) : Finset ℕ :=
  t.live.filter fun i => value < (t.allocated i).end'

theorem ahead_anti {v w : UInt64} (h : v ≤ w) : t.ahead w ⊆ t.ahead v := by
  intro i hi
  obtain ⟨hlive, hlt⟩ := Finset.mem_filter.1 hi
  exact Finset.mem_filter.2 ⟨hlive, UInt64.lt_of_le_of_lt h hlt⟩

/-- A candidate moved past a record has one record less ahead of it. -/
theorem card_ahead_lt {i : ℕ} {v w : UInt64} (hi : i ∈ t.live) (hlt : v < (t.allocated i).end')
    (hle : (t.allocated i).end' ≤ w) : (t.ahead w).card < (t.ahead v).card := by
  refine Finset.card_lt_card ((Finset.ssubset_iff_of_subset ?_).2 ⟨i, ?_, fun hw => ?_⟩)
  · exact ahead_anti (UInt64.le_of_lt (UInt64.lt_of_lt_of_le hlt hle))
  · exact Finset.mem_filter.2 ⟨hi, hlt⟩
  · exact UInt64.not_le.2 (Finset.mem_filter.1 hw).2 hle

/-- The turns that a search can still take: for each record ahead of its candidate once down the
written slots, and the rest of this time. -/
def turnsLeft (t : Allocator) (s : Search) : ℕ :=
  (t.ahead s.value).card * (t.written + 1) + (t.written - s.allocation)

theorem turnsLeft_lt (ht : Counted t) {amount : UInt64} {p : Placement} (hp : p.Advances)
    (hfits : NextFits t amount p) {s s' : Search} (hs : SearchInv t amount p s)
    (h : t.searchBody amount p.next s = .inl s') : t.turnsLeft s' < t.turnsLeft s := by
  obtain ⟨hne, hcases⟩ := searchBody_cases h
  have hlt := lt_written_of_ne ht hs.le_written (hs.count_eq ▸ hne)
  obtain ⟨-, -, rfl⟩ | ⟨hblocked, rfl⟩ | ⟨-, rfl⟩ := hcases
  · simp only [turnsLeft]; omega
  · have hcard := card_ahead_lt (mem_live.2 ⟨hlt, hblocked.2.1⟩) (value_lt_end hblocked.2.2)
      (hp _ (hfits s hs.visited hblocked))
    have hmul := Nat.mul_le_mul_right (t.written + 1) hcard
    rw [Nat.succ_mul] at hmul
    simp only [turnsLeft]; omega
  · simp only [turnsLeft]; omega

/-- **How long a search takes.** No record is twice in the way, and between two records that are the
search goes down the written slots. -/
theorem findAddress_within (ht : Counted t) {amount : UInt64} {p : Placement} (hp : p.Advances)
    (hfits : NextFits t amount p) :
    ∃ value, t.findAddress ((t.live.card + 1) * (t.written + 1)) amount p = some value := by
  refine WhileLoop.run_within (I := SearchInv t amount p) t.turnsLeft
    (fun s s' hs hb => ⟨searchInv_step ht hs hb, turnsLeft_lt ht hp hfits hs hb⟩)
    (searchInv_start amount p) ?_
  have hcard : (t.ahead p.first).card ≤ t.live.card := Finset.card_filter_le _ _
  have hmul := Nat.mul_le_mul_right (t.written + 1) hcard
  rw [Nat.succ_mul]
  simp only [turnsLeft]; omega

theorem findAddress_total (ht : Counted t) {amount : UInt64} {p : Placement} (hp : p.Advances)
    (hfits : NextFits t amount p) : ∃ fuel value, t.findAddress fuel amount p = some value :=
  ⟨_, findAddress_within ht hp hfits⟩

/-! ### The record to free -/

/-- `unallocate` frees the first present record with the given start. -/
theorem matchSlot_spec {fuel slot : ℕ} {pointer : UInt64} (h : t.matchSlot fuel pointer = some slot) :
    ((t.allocated slot).present = true ∧ (t.allocated slot).start = pointer) ∧
      ∀ i < slot, (t.allocated i).present = true → (t.allocated i).start ≠ pointer := by
  refine WhileLoop.run_invariant
    (I := fun n => ∀ i < n, (t.allocated i).present = true → (t.allocated i).start ≠ pointer)
    (Q := fun slot => ((t.allocated slot).present = true ∧ (t.allocated slot).start = pointer) ∧
      ∀ i < slot, (t.allocated i).present = true → (t.allocated i).start ≠ pointer)
    (fun n n' hn hb => ?_) (fun n r hn hb => ?_) (fun i hi => absurd hi (Nat.not_lt_zero i)) h
  · unfold matchBody at hb
    split at hb
    · rename_i hc
      cases hb
      intro i hi hpresent
      rcases Nat.lt_succ_iff_lt_or_eq.1 hi with hlt | rfl
      · exact hn i hlt hpresent
      · exact hc.resolve_left (by simp [hpresent])
    · cases hb
  · unfold matchBody at hb
    split at hb
    · cases hb
    · rename_i hc
      cases hb
      rw [not_or, not_not] at hc
      exact ⟨⟨by simpa using hc.1, hc.2⟩, hn⟩

/-- The scan for the start of a present record goes no further than that record. -/
theorem matchBody_step {i n n' : ℕ} (hi : (t.allocated i).present = true) (hn : n ≤ i)
    (hb : t.matchBody (t.allocated i).start n = .inl n') : n' ≤ i ∧ i - n' < i - n := by
  unfold matchBody at hb
  split at hb
  · rename_i hc
    cases hb
    have hne : n ≠ i := by
      rintro rfl
      simp [hi] at hc
    omega
  · cases hb

theorem matchSlot_total {i : ℕ} (hi : (t.allocated i).present = true) :
    ∃ fuel slot, t.matchSlot fuel (t.allocated i).start = some slot :=
  WhileLoop.run_total (I := fun n => n ≤ i) (fun n => i - n)
    (fun _ _ hn hb => matchBody_step hi hn hb) (Nat.zero_le i)

theorem matchSlot_le {i fuel slot : ℕ} (hi : (t.allocated i).present = true)
    (h : t.matchSlot fuel (t.allocated i).start = some slot) : slot ≤ i := by
  by_contra hlt
  exact (matchSlot_spec h).2 i (by omega) hi rfl

/-! ### The usage -/

/-- The invariant of the loop of `getUsage`. -/
def TallyInv (t : Allocator) (s : Tally) : Prop :=
  s.allocation ≤ t.written ∧ s.count = t.presentBelow s.allocation

theorem tallyInv_start : TallyInv t ⟨0, 0, 0⟩ := ⟨Nat.zero_le _, by simp [presentBelow]⟩

/-- A turn of the loop that does not leave it looks at a written slot and goes to the next one. -/
theorem tallyInv_step (ht : Counted t) {s s' : Tally} (hs : TallyInv t s)
    (h : t.usageBody t.allocations s = .inl s') :
    TallyInv t s' ∧ t.written - s'.allocation < t.written - s.allocation := by
  obtain ⟨hle, hcount⟩ := hs
  unfold usageBody at h
  split_ifs at h with hne hp <;> cases h
  all_goals have hlt := lt_written_of_ne ht hle (hcount ▸ hne)
  · refine ⟨⟨hlt, ?_⟩, ?_⟩
    · rw [presentBelow_succ_of_present hp, hcount]
    · dsimp only; omega
  · refine ⟨⟨hlt, ?_⟩, ?_⟩
    · rw [presentBelow_succ_of_absent (by simpa using hp), hcount]
    · dsimp only; omega

theorem getUsage_total (ht : Counted t) : ∃ fuel size, t.getUsage fuel = some size :=
  WhileLoop.run_total (I := TallyInv t) (fun s : Tally => t.written - s.allocation)
    (fun _ _ hs hb => tallyInv_step ht hs hb) tallyInv_start

end Allocator
end Naul
