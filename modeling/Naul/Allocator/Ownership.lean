import Naul.Allocator.Disjoint

/-!
# Freeing what was allocated

`unallocate` knows a block only by its start and clears the first present record that has it. A
session keeps, beside the table, the blocks whose addresses have been returned and not yet freed,
each with the slot its call recorded it in. `Sound` is the invariant: a held block is the only
present record with its start. Recording a block of at least one byte keeps it (`Sound.take`), since
such a block is clear of every non-empty record and so shares its start with none.

A block of no bytes is clear of a record that starts where it starts, and freeing it clears that
record instead: `zero_amount_frees_region`.
-/

namespace Naul
namespace Allocator

/-- The present records. -/
def records (t : Allocator) : Multiset Allocation := t.live.val.map t.allocated

/-- A block that a call returned: its address, the slot it was recorded in and its size. -/
structure Block where
  pointer : UInt64
  slot : ℕ
  amount : UInt64
  deriving DecidableEq

/-- The record the call made for the block. -/
def Block.record (b : Block) : Allocation := ⟨true, b.pointer, b.pointer + b.amount⟩

/-- The table and the blocks returned and not yet freed. -/
structure Session where
  table : Allocator
  held : List Block

/-- `free k` passes the address of the `k`th held block to `unallocate`, and never again. -/
inductive Request
  | allocate (amount : UInt64)
  | allocateAligned (amount alignment : UInt64)
  | free (k : ℕ)

/-- Hold the block a call returned. -/
def Session.hold (fuel : ℕ) (s : Session) (amount : UInt64) (res : UInt64 × Allocator) :
    Option Session :=
  (s.table.emptySlot fuel).map fun slot => ⟨res.2, ⟨res.1, slot, amount⟩ :: s.held⟩

def Request.step (fuel : ℕ) (s : Session) : Request → Option Session
  | .allocate amount => (s.table.allocate fuel amount).bind (s.hold fuel amount)
  | .allocateAligned amount alignment =>
    (s.table.allocateAligned fuel amount alignment).bind (s.hold fuel amount)
  | .free k => do
    let b ← s.held[k]?
    let table ← s.table.unallocate fuel b.pointer
    return ⟨table, s.held.eraseIdx k⟩

/-- No address computed on the way exceeds `2 ^ 64 - 1`, and an alignment is positive. -/
def Request.Legal (s : Session) : Request → Prop
  | .allocate amount => SumsFit s.table amount plain ∧ NextFits s.table amount plain
  | .allocateAligned amount alignment => 1 ≤ alignment ∧
    SumsFit s.table amount (aligned alignment) ∧ NextFits s.table amount (aligned alignment)
  | .free _ => True

/-- At least one byte is asked for. -/
def Request.Positive : Request → Prop
  | .allocate amount => 1 ≤ amount
  | .allocateAligned amount _ => 1 ≤ amount
  | .free _ => True

section Table

variable {t t' : Allocator} {slot fuel : ℕ} {amount value : UInt64} {p : Placement}

/-- Every present record excludes at least one address. -/
def NonEmpty (t : Allocator) : Prop := ∀ i ∈ t.live, (t.allocated i).start < (t.allocated i).end'

theorem Recorded.nonEmpty {r : Allocation} (h : Recorded t slot r t') (ht : NonEmpty t)
    (hr : r.start < r.end') : NonEmpty t' := by
  intro i hi
  rw [h.live_eq, Finset.mem_insert] at hi
  rcases hi with rfl | hi
  · rwa [h.allocated_slot]
  · rw [h.allocated_of_live hi]
    exact ht i hi

theorem value_lt_of_fits (hfits : SumsFit t amount p) (hamount : 1 ≤ amount)
    (h : t.findAddress fuel amount p = some value) : value < value + amount := by
  obtain ⟨s, hs, rfl⟩ := findAddress_visited h
  have hsum := hfits s hs
  have hpos := UInt64.le_iff_toNat_le.1 hamount
  rw [UInt64.toNat_one] at hpos
  rw [UInt64.lt_iff_toNat_lt, UInt64.toNat_add, Nat.mod_eq_of_lt hsum]
  omega

/-- A new block of at least one byte shares its start with no present record. -/
theorem start_ne_value (ht : Counted t) (hne : NonEmpty t) (hlt : value < value + amount)
    (h : t.findAddress fuel amount p = some value) : ∀ i ∈ t.live, (t.allocated i).start ≠ value := by
  rintro i hi rfl
  rcases findAddress_clear ht h i hi with hle | hle
  · exact absurd (UInt64.lt_of_lt_of_le hlt hle) (UInt64.lt_irrefl _)
  · exact absurd (UInt64.lt_of_lt_of_le (hne i hi) hle) (UInt64.lt_irrefl _)

/-- `unallocate` clears the only present record with the given start. -/
theorem unallocate_unique {pointer : UInt64} (hslot : slot ∈ t.live)
    (hstart : (t.allocated slot).start = pointer)
    (huniq : ∀ i ∈ t.live, (t.allocated i).start = pointer → i = slot)
    (h : t.unallocate fuel pointer = some t') : t' = t.release slot := by
  obtain ⟨k, hrel, rfl, hk⟩ := unallocate_released hslot hstart h
  rw [huniq k hrel.mem hk]

theorem Recorded.records {r : Allocation} (h : Recorded t slot r t') :
    t'.records = r ::ₘ t.records := by
  rw [Allocator.records, h.live_eq, Finset.insert_val_of_notMem h.fresh, Multiset.map_cons,
    h.allocated_slot]
  congr 1
  exact Multiset.map_congr rfl fun i hi => h.allocated_of_live hi

theorem Released.records (h : Released t slot t') :
    t.records = t.allocated slot ::ₘ t'.records := by
  have hmap : t'.records = t'.live.val.map t.allocated := by
    refine Multiset.map_congr rfl fun i hi => h.allocated_of_ne i ?_
    have hi' : i ∈ t.live.erase slot := h.live_eq ▸ hi
    exact Finset.ne_of_mem_erase hi'
  rw [hmap, h.live_eq, Finset.erase_val, ← Multiset.map_cons, Multiset.cons_erase h.mem]
  rfl

/-- **Allocating at least one byte and freeing it restores the present records.** -/
theorem allocate_unallocate (ht : Counted t) (hne : NonEmpty t) (hamount : 1 ≤ amount)
    (hfits : SumsFit t amount plain) :
    ∃ fuel value t' t'', t.allocate fuel amount = some (value, t') ∧
      t'.unallocate fuel value = some t'' ∧ t''.records = t.records := by
  obtain ⟨m, value, t', halloc⟩ := reserve_total ht plain_advances (nextFits_plain t amount)
  obtain ⟨slot, hfind, hslot, hrec⟩ := reserve_recorded ht halloc
  have hlt := value_lt_of_fits hfits hamount hfind
  have hmem : slot ∈ t'.live := by rw [hrec.live_eq]; exact Finset.mem_insert_self ..
  have hstart : (t'.allocated slot).start = value := by rw [hrec.allocated_slot]
  obtain ⟨n, t'', hfree⟩ := unallocate_total hmem
  rw [hstart] at hfree
  have huniq : ∀ i ∈ t'.live, (t'.allocated i).start = value → i = slot := by
    intro i hi his
    rw [hrec.live_eq, Finset.mem_insert] at hi
    refine hi.resolve_right fun hi => start_ne_value ht hne hlt hfind i hi ?_
    rwa [← hrec.allocated_of_live hi]
  have heq := unallocate_unique hmem hstart huniq hfree
  have hrel : Released t' slot t'' := heq ▸ released_release hmem
  refine ⟨max m n, value, t', t'', ?_, ?_, ?_⟩
  · exact reserve_mono (le_max_left m n) halloc
  · exact unallocate_mono (le_max_right m n) hfree
  · have h := hrec.records.symm.trans hrel.records
    rw [hrec.allocated_slot] at h
    exact ((Multiset.cons_inj_right _).1 h).symm

end Table

/-! ### Sessions -/

/-- The invariant of a session that started from the table `t₀`: a held block is recorded in its
slot, it is the only present record with its start, and the records of `t₀` are untouched. -/
structure Sound (t₀ : Allocator) (s : Session) : Prop where
  counted : Counted s.table
  nonEmpty : NonEmpty s.table
  owned : ∀ b ∈ s.held, b.slot ∈ s.table.live ∧ s.table.allocated b.slot = b.record
  unique : ∀ b ∈ s.held, ∀ i ∈ s.table.live, (s.table.allocated i).start = b.pointer → i = b.slot
  distinct : s.held.Pairwise fun b c => b.slot ≠ c.slot
  marked : ∀ i ∈ t₀.live, i ∈ s.table.live ∧ s.table.allocated i = t₀.allocated i ∧
    ∀ b ∈ s.held, b.slot ≠ i

section Sessions

variable {t₀ t' : Allocator} {s s' : Session} {fuel slot : ℕ} {amount value : UInt64}
  {p : Placement}

theorem sound_start (ht : Counted t₀) (hne : NonEmpty t₀) : Sound t₀ ⟨t₀, []⟩ where
  counted := ht
  nonEmpty := hne
  owned := by simp
  unique := by simp
  distinct := List.Pairwise.nil
  marked := fun i hi => ⟨hi, rfl, by simp⟩

/-- Recording a block with a new start keeps the session sound. -/
theorem Sound.take (h : Sound t₀ s) (hlt : value < value + amount)
    (hstart : ∀ i ∈ s.table.live, (s.table.allocated i).start ≠ value)
    (hrec : Recorded s.table slot ⟨true, value, value + amount⟩ t') :
    Sound t₀ ⟨t', ⟨value, slot, amount⟩ :: s.held⟩ where
  counted := hrec.counted h.counted
  nonEmpty := hrec.nonEmpty h.nonEmpty hlt
  owned := by
    intro b hb
    dsimp only
    rw [hrec.live_eq, Finset.mem_insert]
    rcases List.mem_cons.1 hb with rfl | hb
    · exact ⟨.inl rfl, hrec.allocated_slot⟩
    · obtain ⟨hlive, hrecord⟩ := h.owned b hb
      exact ⟨.inr hlive, (hrec.allocated_of_live hlive).trans hrecord⟩
  unique := by
    intro b hb i hi his
    dsimp only at hi his
    rw [hrec.live_eq, Finset.mem_insert] at hi
    rw [List.mem_cons] at hb
    rcases hb with rfl | hb <;> rcases hi with rfl | hi
    · rfl
    · rw [hrec.allocated_of_live hi] at his
      exact absurd his (hstart i hi)
    · -- an older block with the new start would be a present record with that start
      rw [hrec.allocated_slot] at his
      obtain ⟨hlive, hrecord⟩ := h.owned b hb
      exact absurd ((congrArg Allocation.start hrecord).trans his.symm) (hstart _ hlive)
    · rw [hrec.allocated_of_live hi] at his
      exact h.unique b hb i hi his
  distinct := by
    refine List.Pairwise.cons (fun c hc (he : slot = c.slot) => ?_) h.distinct
    exact hrec.fresh (he ▸ (h.owned c hc).1)
  marked := by
    intro i hi
    obtain ⟨hlive, heq, hheld⟩ := h.marked i hi
    refine ⟨?_, (hrec.allocated_of_live hlive).trans heq, fun b hb => ?_⟩
    · dsimp only
      rw [hrec.live_eq]
      exact Finset.mem_insert_of_mem hlive
    · rcases List.mem_cons.1 hb with rfl | hb
      · rintro rfl
        exact hrec.fresh hlive
      · exact hheld b hb

theorem Sound.hold (h : Sound t₀ s) (hamount : 1 ≤ amount) (hfits : SumsFit s.table amount p)
    (hstep : (s.table.reserve fuel amount p).bind (s.hold fuel amount) = some s') :
    Sound t₀ s' := by
  obtain ⟨⟨value, t'⟩, hres, hhold⟩ := Option.bind_eq_some_iff.1 hstep
  obtain ⟨slot, hslot, rfl⟩ := Option.map_eq_some_iff.1 hhold
  obtain ⟨slot', hfind, hslot', hrec⟩ := reserve_recorded h.counted hres
  obtain rfl := Option.some.inj (hslot.symm.trans hslot')
  have hlt := value_lt_of_fits hfits hamount hfind
  exact h.take hlt (start_ne_value h.counted h.nonEmpty hlt hfind) hrec

/-- Freeing a held block clears the record of the call that returned it. -/
theorem Sound.unallocate_eq (h : Sound t₀ s) {b : Block} (hb : b ∈ s.held)
    (hfree : s.table.unallocate fuel b.pointer = some t') : t' = s.table.release b.slot := by
  obtain ⟨hlive, hrecord⟩ := h.owned b hb
  exact unallocate_unique hlive (congrArg Allocation.start hrecord) (h.unique b hb) hfree

theorem Sound.free (h : Sound t₀ s) {k : ℕ} {b : Block} (hb : s.held[k]? = some b) :
    Sound t₀ ⟨s.table.release b.slot, s.held.eraseIdx k⟩ := by
  obtain ⟨hk, rfl⟩ := List.getElem?_eq_some_iff.1 hb
  have hmem : s.held[k] ∈ s.held := List.getElem_mem hk
  have hrel := released_release (h.owned _ hmem).1
  -- the blocks still held are in other slots than the one freed
  have hother : ∀ c ∈ s.held.eraseIdx k, c ∈ s.held ∧ c.slot ≠ s.held[k].slot := by
    intro c hc
    have hp := (List.Perm.pairwise_iff (fun hne => Ne.symm hne)
      (List.getElem_cons_eraseIdx_perm hk)).2 h.distinct
    exact ⟨List.mem_of_mem_eraseIdx hc, ((List.pairwise_cons.1 hp).1 c hc).symm⟩
  have hkeep : ∀ i, i ∈ s.table.live → i ≠ s.held[k].slot →
      i ∈ (s.table.release s.held[k].slot).live := by
    intro i hi hne
    rw [hrel.live_eq]
    exact Finset.mem_erase.2 ⟨hne, hi⟩
  have hlive : ∀ i ∈ (s.table.release s.held[k].slot).live, i ∈ s.table.live ∧
      (s.table.release s.held[k].slot).allocated i = s.table.allocated i := by
    intro i hi
    rw [hrel.live_eq, Finset.mem_erase] at hi
    exact ⟨hi.2, hrel.allocated_of_ne i hi.1⟩
  refine ⟨hrel.counted h.counted, fun i hi => ?_, fun c hc => ?_, fun c hc i hi his => ?_,
    h.distinct.eraseIdx k, fun i hi => ?_⟩
  · rw [(hlive i hi).2]
    exact h.nonEmpty i (hlive i hi).1
  · obtain ⟨hheld, hne⟩ := hother c hc
    obtain ⟨hclive, hrecord⟩ := h.owned c hheld
    exact ⟨hkeep _ hclive hne, (hrel.allocated_of_ne _ hne).trans hrecord⟩
  · rw [(hlive i hi).2] at his
    exact h.unique c (hother c hc).1 i (hlive i hi).1 his
  · obtain ⟨hilive, heq, hheld⟩ := h.marked i hi
    have hne : i ≠ s.held[k].slot := (hheld _ hmem).symm
    exact ⟨hkeep i hilive hne, (hrel.allocated_of_ne i hne).trans heq,
      fun c hc => hheld c (hother c hc).1⟩

theorem Sound.step (h : Sound t₀ s) {r : Request} (hr : r.Legal s ∧ r.Positive)
    (hstep : r.step fuel s = some s') : Sound t₀ s' := by
  cases r with
  | allocate amount => exact h.hold hr.2 hr.1.1 hstep
  | allocateAligned amount alignment => exact h.hold hr.2 hr.1.2.1 hstep
  | free k =>
    simp only [Request.step, bind, Option.bind_eq_some_iff, pure, Option.some.injEq] at hstep
    obtain ⟨b, hb, t', hfree, rfl⟩ := hstep
    have hmem : b ∈ s.held := List.mem_of_getElem? hb
    rw [h.unallocate_eq hmem hfree]
    exact h.free hb

theorem nonEmpty_markAll {t : Allocator} {regions : List (UInt64 × UInt64)}
    (hne : ∀ r ∈ regions, r.1 < r.2) (ht : Counted t ∧ NonEmpty t)
    (hrun : t.markAll fuel regions = some t₀) : Counted t₀ ∧ NonEmpty t₀ := by
  induction regions generalizing t with
  | nil =>
    rw [markAll, Trace.run_nil, Option.some.injEq] at hrun
    exact hrun ▸ ht
  | cons r rest ih =>
    rw [markAll, Trace.run_cons] at hrun
    obtain ⟨t', hstep, hrest⟩ := Option.bind_eq_some_iff.1 hrun
    obtain ⟨slot, hrec⟩ := markUnusable_recorded ht.1 hstep
    exact ih (fun q hq => hne q (List.mem_cons_of_mem _ hq))
      ⟨hrec.counted ht.1, hrec.nonEmpty ht.2 (hne r List.mem_cons_self)⟩ hrest

/-- **Freeing frees what was allocated**, when every call asks for at least one byte. In every state
of such a run: `unallocate` returns for the address of a held block and clears exactly the record
its call made; allocating and freeing restores the present records; and every marked region is still
recorded. -/
theorem run_frees_own {memory : ℕ → Allocation} {regions : List (UInt64 × UInt64)}
    {requests : List Request} (hne : ∀ r ∈ regions, r.1 < r.2)
    (hmark : (initAllocator memory).markAll fuel regions = some t₀)
    (hrequests : Trace.Along (Request.step fuel) (fun s r => r.Legal s ∧ r.Positive) ⟨t₀, []⟩ requests)
    (hrun : Trace.run (Request.step fuel) ⟨t₀, []⟩ requests = some s) :
    (∀ b ∈ s.held, b.slot ∈ s.table.live ∧ s.table.allocated b.slot = b.record ∧
      (∃ n, s.table.unallocate n b.pointer = some (s.table.release b.slot)) ∧
      ∀ n t', s.table.unallocate n b.pointer = some t' → t' = s.table.release b.slot) ∧
    (∀ amount, 1 ≤ amount → SumsFit s.table amount plain →
      ∃ n value t' t'', s.table.allocate n amount = some (value, t') ∧
        t'.unallocate n value = some t'' ∧ t''.records = s.table.records) ∧
    (∀ i ∈ t₀.live, i ∈ s.table.live ∧ s.table.allocated i = t₀.allocated i) := by
  have h₀ : Counted t₀ ∧ NonEmpty t₀ := by
    refine nonEmpty_markAll hne ⟨?_, ?_⟩ hmark
    · exact (disjointed_init memory).counted
    · simp [NonEmpty]
  have h : Sound t₀ s :=
    Trace.run_invariant_along (fun s r s' hs hr hstep => hs.step hr hstep)
      (sound_start h₀.1 h₀.2) hrequests hrun
  refine ⟨fun b hb => ?_, fun amount hamount hfits => ?_, fun i hi => ?_⟩
  · obtain ⟨hlive, hrecord⟩ := h.owned b hb
    obtain ⟨n, t', hfree⟩ := unallocate_total hlive
    rw [hrecord] at hfree
    refine ⟨hlive, hrecord, ⟨n, ?_⟩, fun n t' hfree => h.unallocate_eq hb hfree⟩
    exact h.unallocate_eq hb hfree ▸ hfree
  · exact allocate_unallocate h.counted h.nonEmpty hamount hfits
  · exact ⟨(h.marked i hi).1, (h.marked i hi).2.1⟩

/-- A run of one allocation of 16 bytes after marking one region, to which the theorem applies. -/
theorem run_frees_own_boot :
    ∃ t₀ s, (initAllocator fun _ => ⟨true, 7, 9⟩).markAll 9 [(0x1000000, 0x1002000)] = some t₀ ∧
      Trace.run (Request.step 9) ⟨t₀, []⟩ [.allocate 16] = some s ∧
      s.held = [⟨0x1002000, 1, 16⟩] ∧
      ∀ n t', s.table.unallocate n 0x1002000 = some t' → t' = s.table.release 1 := by
  refine ⟨_, _, rfl, rfl, rfl, ?_⟩
  have hne : (0x1000000 : UInt64) < 0x1002000 := by decide
  have h := @run_frees_own _ _ 9 (fun _ => ⟨true, 7, 9⟩) [(0x1000000, 0x1002000)] [.allocate 16]
    (List.forall_mem_singleton.2 hne) rfl ?_ rfl
  · exact (h.1 ⟨0x1002000, 1, 16⟩ List.mem_cons_self).2.2.2
  · have hpos : (1 : UInt64) ≤ 16 := by decide
    exact ⟨⟨⟨@sumsFit_of_trail _ 9 _ _ _ rfl (by decide), nextFits_plain _ _⟩, hpos⟩,
      fun _ _ => trivial⟩

/-- **No bytes**: with an unusable region at `memoryStart`, the block `allocate(0)` returns starts
where the region starts, and freeing it clears the region's record (slot `0`) and leaves the one the
call made (slot `1`). -/
theorem zero_amount_frees_region :
    ∃ t₀ s t', (initAllocator fun _ => ⟨false, 0, 0⟩).markAll 9 [(0x1000000, 0x1002000)] = some t₀ ∧
      (Request.allocate 0).Legal ⟨t₀, []⟩ ∧
      Trace.run (Request.step 9) ⟨t₀, []⟩ [.allocate 0] = some s ∧
      s.held = [⟨0x1000000, 1, 0⟩] ∧ s.table.unallocate 9 0x1000000 = some t' ∧
      t₀.live = {0} ∧ t'.live = {1} ∧ t' ≠ s.table.release 1 ∧ t'.records ≠ t₀.records := by
  refine ⟨_, _, _, rfl, ⟨@sumsFit_of_trail _ 9 _ _ _ rfl (by decide), nextFits_plain _ _⟩, rfl, rfl,
    rfl, by decide, by decide, fun h => ?_, by decide⟩
  have hlive := congrArg live h
  revert hlive
  decide

end Sessions

end Allocator
end Naul
