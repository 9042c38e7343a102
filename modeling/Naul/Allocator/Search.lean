import Naul.Allocator.Update

/-!
# The searches of the allocator end

A record in the way of a candidate sends the search back to the top of the table, so that neither its
place in the table nor its count only grows. What falls is the number of records that end above the
candidate (`ahead`): the candidate is below the end of the record in its way, and is moved to that end
or beyond. No record is in the way twice, whatever the order of the slots, also where records overlap,
and also where the end of a candidate wraps.

`allocateAligned` rounds the end of the record up, and it is only where this wraps that a search may
come back to a candidate. Then it never ends (`search_diverges`).
-/

namespace Naul
namespace Allocator

variable {t : Allocator} {amount : UInt64} {p : Placement} {s : Search}

/-- **The searches end.** That of `allocate` for every amount, and that of `allocateAligned` for every
amount and alignment where rounding up no record's end wraps; after at most as many turns as there are
written slots, and one, for each record and once more. -/
theorem search_terminates (ht : Counted t) (amount : UInt64) :
    (∃ value, t.findAddress ((t.live.card + 1) * (t.written + 1)) amount plain = some value) ∧
    ∀ alignment, 1 ≤ alignment →
      (∀ i ∈ t.live, (t.allocated i).end'.toNat +
        (alignment - (t.allocated i).end' % alignment).toNat < 2 ^ 64) →
      ∃ value, t.findAddress ((t.live.card + 1) * (t.written + 1)) amount (aligned alignment) =
        some value := by
  constructor
  · exact findAddress_within ht plain_advances (nextFits_plain t amount)
  · intro alignment _ hround
    refine findAddress_within ht (aligned_advances alignment) fun s hs hb => ?_
    exact hround s.allocation (live_of_blocked ht hs hb)

/-- Two records that overlap, with a free slot between theirs. -/
def overlapping : Allocator where
  allocated i :=
    if i = 0 then ⟨true, 0x2000000, 0x3000000⟩
    else if i = 1 then ⟨false, 0x1000000, 0x1000010⟩
    else ⟨true, 0x1000000, 0x2800000⟩
  allocations := 2
  unusable := 0
  written := 3

/-- The end of each candidate of the first search wraps. -/
theorem search_terminates_overlapping :
    (∃ value, overlapping.findAddress 12 0xffffffffffffffff plain = some value) ∧
      ∃ value, overlapping.findAddress 12 0x1000 (aligned 0x1000) = some value := by
  have hcounted : Counted overlapping := rfl
  exact ⟨(search_terminates hcounted 0xffffffffffffffff).1,
    (search_terminates hcounted 0x1000).2 0x1000 (by decide) (by decide)⟩

/-- A search that a move past a record leads back to the same record never ends. -/
theorem search_diverges (hs : Searching t amount p s) (hb : Blocked t amount s)
    (hback : WhileLoop.Visits (t.searchBody amount p.next)
      ⟨p.next (t.allocated s.allocation).end', 0, 0⟩ s) (fuel : ℕ) :
    t.findAddress fuel amount p = none := by
  refine WhileLoop.run_cycle hs ?_ hback fuel
  obtain ⟨hne, hpresent, hclear⟩ := hb
  rw [searchBody, if_neg hne, if_pos hpresent, if_neg hclear]

/-- The end of a record below the last address, rounded up to an even one, wraps to the record's
start. -/
theorem search_diverges_wrapped (fuel : ℕ) :
    Allocator.findAddress fuel ⟨fun _ => ⟨true, 0, 0xffffffffffffffff⟩, 1, 0, 1⟩ 16 (aligned 2) =
      none := by
  refine search_diverges (s := ⟨0, 0, 0⟩) ?_ ?_ ?_ fuel
  · exact Relation.ReflTransGen.single rfl
  · exact ⟨by decide, rfl, by decide⟩
  · exact Relation.ReflTransGen.refl

end Allocator
end Naul
