import Naul.Allocator.Update

/-!
# Whose the records are

A table of records together with a ghost that says who holds the record in each slot. An allocation
records a block for its holder. `unallocate` knows the block by its start alone: where no other
present record has that start (`Sole`), it takes away what its holder has there, and what the others
hold stays.
-/

namespace Naul

/-- A present record starts at `a`. -/
def Allocator.Starts (t : Allocator) (a : UInt64) : Prop := ∃ i ∈ t.live, (t.allocated i).start = a

instance Allocator.decidableStarts (t : Allocator) (a : UInt64) : Decidable (t.Starts a) :=
  inferInstanceAs (Decidable (∃ i ∈ t.live, _))

/-- The table, and the holder of the record in each slot; no operation reads `holder`. -/
structure Holdings (α : Type) where
  table : Allocator
  holder : ℕ → Option α

namespace Holdings

open Allocator

variable {α : Type}

def reserve (fuel : ℕ) (o : α) (amount : UInt64) (p : Placement) (s : Holdings α) :
    Option (UInt64 × Holdings α) := do
  let slot ← s.table.emptySlot fuel
  let (value, table) ← s.table.reserve fuel amount p
  return (value, ⟨table, Function.update s.holder slot (some o)⟩)

/-- `allocate(amount)`, for the holder `o`. -/
def allocate (fuel : ℕ) (o : α) (amount : UInt64) (s : Holdings α) : Option (UInt64 × Holdings α) :=
  s.reserve fuel o amount plain

/-- `allocateAligned(amount, alignment)`, for the holder `o`. -/
def allocateAligned (fuel : ℕ) (o : α) (amount alignment : UInt64) (s : Holdings α) :
    Option (UInt64 × Holdings α) :=
  s.reserve fuel o amount (aligned alignment)

def unallocate (fuel : ℕ) (pointer : UInt64) (s : Holdings α) : Option (Holdings α) := do
  let slot ← s.table.matchSlot fuel pointer
  let table ← s.table.unallocate fuel pointer
  return ⟨table, Function.update s.holder slot none⟩

/-- The records of `o` pass to `f o`. -/
def rename (f : α → α) (s : Holdings α) : Holdings α :=
  { s with holder := fun i => (s.holder i).map f }

/-- `o` holds a block at `a`. -/
def Holds (s : Holdings α) (o : α) (a : UInt64) : Prop :=
  ∃ i ∈ s.table.live, s.holder i = some o ∧ (s.table.allocated i).start = a

instance decidableHolds [DecidableEq α] (s : Holdings α) (o : α) (a : UInt64) :
    Decidable (s.Holds o a) :=
  inferInstanceAs (Decidable (∃ i ∈ s.table.live, _ ∧ _))

/-- No two present records start at `a`. -/
def Sole (s : Holdings α) (a : UInt64) : Prop :=
  ∀ i ∈ s.table.live, ∀ j ∈ s.table.live,
    (s.table.allocated i).start = a → (s.table.allocated j).start = a → i = j

instance decidableSole (s : Holdings α) (a : UInt64) : Decidable (s.Sole a) :=
  inferInstanceAs (Decidable (∀ i ∈ s.table.live, ∀ j ∈ s.table.live, _))

variable {s s' : Holdings α} {o o' : α} {a b value amount : UInt64} {p : Placement} {fuel : ℕ}

theorem Holds.starts (h : s.Holds o a) : s.table.Starts a := by
  obtain ⟨i, hi, -, hstart⟩ := h
  exact ⟨i, hi, hstart⟩

theorem Holds.rename (h : s.Holds o a) (f : α → α) : (s.rename f).Holds (f o) a := by
  obtain ⟨i, hi, ho, hstart⟩ := h
  refine ⟨i, hi, ?_, hstart⟩
  show (s.holder i).map f = some (f o)
  rw [ho]
  rfl

/-- The new block is the holder's, and nobody loses one. -/
theorem reserve_holds (hs : Counted s.table) (h : s.reserve fuel o amount p = some (value, s')) :
    Counted s'.table ∧ s'.Holds o value ∧ ∀ o' a, s.Holds o' a → s'.Holds o' a := by
  simp only [reserve, bind, Option.bind_eq_some_iff, pure, Option.some.injEq, Prod.mk.injEq] at h
  obtain ⟨slot, hslot, ⟨v, t⟩, hres, rfl, rfl⟩ := h
  obtain ⟨slot', -, hslot', hrec⟩ := reserve_recorded hs hres
  obtain rfl := Option.some.inj (hslot.symm.trans hslot')
  refine ⟨hrec.counted hs, ⟨slot, ?_, Function.update_self .., ?_⟩, ?_⟩
  · dsimp only
    rw [hrec.live_eq]
    exact Finset.mem_insert_self ..
  · dsimp only
    rw [hrec.allocated_slot]
  · rintro o' a ⟨i, hi, ho, hstart⟩
    have hne : i ≠ slot := by
      rintro rfl
      exact hrec.fresh hi
    refine ⟨i, ?_, (Function.update_of_ne hne ..).trans ho, ?_⟩
    · dsimp only
      rw [hrec.live_eq]
      exact Finset.mem_insert_of_mem hi
    · dsimp only
      rwa [hrec.allocated_of_live hi]

/-- The block is gone, and the others keep theirs. -/
theorem unallocate_holds (hs : Counted s.table) (ho : s.Holds o a) (hsole : s.Sole a)
    (h : s.unallocate fuel a = some s') :
    Counted s'.table ∧ ¬ s'.table.Starts a ∧ ∀ o' b, o' ≠ o → s.Holds o' b → s'.Holds o' b := by
  obtain ⟨i, hi, hholder, hstart⟩ := ho
  simp only [unallocate, bind, Option.bind_eq_some_iff, pure, Option.some.injEq] at h
  obtain ⟨slot, hslot, t, hfree, rfl⟩ := h
  obtain ⟨slot', hrel, htable, hstart'⟩ := unallocate_released hi hstart hfree
  obtain rfl : slot' = i := hsole slot' hrel.mem i hi hstart' hstart
  obtain rfl : slot = slot' := by
    obtain ⟨hlive, hpointer⟩ := matchSlot_live hi hstart hslot
    exact hsole slot hlive slot' hi hpointer hstart
  refine ⟨hrel.counted hs, ?_, ?_⟩
  · rintro ⟨j, hj, hj'⟩
    dsimp only at hj hj'
    rw [hrel.live_eq, Finset.mem_erase] at hj
    rw [hrel.allocated_of_ne j hj.1] at hj'
    exact hj.1 (hsole j hj.2 slot hi hj' hstart)
  · rintro o' b hne ⟨j, hj, hholder', hj'⟩
    have hjs : j ≠ slot := by
      rintro rfl
      exact hne (Option.some.inj (hholder'.symm.trans hholder))
    refine ⟨j, ?_, (Function.update_of_ne hjs ..).trans hholder', ?_⟩
    · dsimp only
      rw [hrel.live_eq]
      exact Finset.mem_erase.2 ⟨hjs, hj⟩
    · dsimp only
      rwa [hrel.allocated_of_ne j hjs]

end Holdings

end Naul
