import Naul.Symbols

/-!
# The symbol of an address (`getSymbol`)

`getSymbol` goes over the table and keeps the first entry with the smallest difference from the address
to that of a symbol. The difference is computed modulo `2 ^ 64`: for a symbol above the address it is
greater than the address itself (`lt_difference`), and for the others it is at most that
(`toNat_difference`). So the entry that is kept is the floor of the address, once there is one.
-/

namespace Naul

namespace Symbols

/-- The variables of the loop. -/
structure Closest where
  i : UInt64
  closestId : UInt64
  smallestDifference : UInt64

/-- One turn of `for (uint64_t i = 0; i < count; i++)`; in the end the name and `*offset`. -/
def closestTurn (symbols : UInt64 → Symbol) (count address : UInt64) (s : Closest) :
    Closest ⊕ (List UInt8 × UInt64) :=
  if s.i < count then
    let difference := address - (symbols s.i).address
    if difference < s.smallestDifference then .inl ⟨s.i + 1, s.i, difference⟩
    else .inl { s with i := s.i + 1 }
  else .inr ((symbols s.closestId).name, s.smallestDifference)

/-- `getSymbol(symbols, count, address, &offset)`: the name, and the offset. -/
def getSymbol (fuel : ℕ) (symbols : UInt64 → Symbol) (count address : UInt64) :
    Option (List UInt8 × UInt64) :=
  WhileLoop.run (closestTurn symbols count address) fuel ⟨0, 0, UInt64.ofNat (2 ^ 64 - 1)⟩

variable {symbols : UInt64 → Symbol} {count address a : UInt64} {s s' : Closest}

/-! ### Differences -/

/-- From a symbol that is not above the address. -/
theorem toNat_difference (h : a ≤ address) : (address - a).toNat = address.toNat - a.toNat :=
  UInt64.toNat_sub_of_le _ _ h

/-- From a symbol above the address the difference wraps. -/
theorem lt_difference (h : address < a) : address.toNat < (address - a).toNat := by
  have ha := a.toNat_lt
  rw [UInt64.lt_iff_toNat_lt] at h
  rw [UInt64.toNat_sub]
  omega

/-! ### The loop -/

/-- The entry that is kept is the first with the smallest difference of those before `i`; before there is
one with less than the greatest difference, it is the first of all. -/
structure Smallest (symbols : UInt64 → Symbol) (count address : UInt64) (s : Closest) : Prop where
  le_count : s.i ≤ count
  smallest : ∀ j < s.i, s.smallestDifference ≤ address - (symbols j).address
  first : ∀ j < s.closestId, s.smallestDifference < address - (symbols j).address
  kept : s.closestId < s.i ∧ s.smallestDifference = address - (symbols s.closestId).address ∨
    s.closestId = 0 ∧ s.smallestDifference = UInt64.ofNat (2 ^ 64 - 1)

theorem smallest_start (symbols : UInt64 → Symbol) (count address : UInt64) :
    Smallest symbols count address ⟨0, 0, UInt64.ofNat (2 ^ 64 - 1)⟩ := by
  constructor
  · exact UInt64.zero_le
  · intro j hj
    exact absurd hj UInt64.not_lt_zero
  · intro j hj
    exact absurd hj UInt64.not_lt_zero
  · exact Or.inr ⟨rfl, rfl⟩

theorem Smallest.turn (h : Smallest symbols count address s)
    (hturn : closestTurn symbols count address s = .inl s') :
    Smallest symbols count address s' ∧ count.toNat - s'.i.toNat < count.toNat - s.i.toNat := by
  unfold closestTurn at hturn
  split_ifs at hturn with hlt
  have hlt' := UInt64.lt_iff_toNat_lt.1 hlt
  have hnext : (s.i + 1).toNat = s.i.toNat + 1 := by
    have hcount := count.toNat_lt
    rw [UInt64.toNat_add, UInt64.toNat_one]
    omega
  have hle : s.i + 1 ≤ count := by
    rw [UInt64.le_iff_toNat_le, hnext]
    exact hlt'
  have hprev : ∀ j, j < s.i + 1 → j < s.i ∨ j = s.i := by
    intro j hj
    rw [UInt64.lt_iff_toNat_lt, hnext] at hj
    rw [UInt64.lt_iff_toNat_lt, ← UInt64.toNat_inj]
    omega
  have hself : s.i < s.i + 1 := by
    rw [UInt64.lt_iff_toNat_lt, hnext]
    exact Nat.lt_succ_self _
  by_cases hless : address - (symbols s.i).address < s.smallestDifference
  · rw [if_pos hless] at hturn
    cases hturn
    refine ⟨⟨hle, fun j hj => ?_, fun j hj => ?_, Or.inl ⟨hself, rfl⟩⟩, ?_⟩
    · rcases hprev j hj with hj | rfl
      · exact UInt64.le_trans (UInt64.le_of_lt hless) (h.smallest j hj)
      · exact UInt64.le_refl _
    · exact UInt64.lt_of_lt_of_le hless (h.smallest j hj)
    · dsimp only
      omega
  · rw [if_neg hless] at hturn
    cases hturn
    refine ⟨⟨hle, fun j hj => ?_, h.first, ?_⟩, ?_⟩
    · rcases hprev j hj with hj | rfl
      · exact h.smallest j hj
      · exact UInt64.not_lt.1 hless
    · exact h.kept.imp_left fun hkept => ⟨UInt64.lt_trans hkept.1 hself, hkept.2⟩
    · dsimp only
      omega

/-- At the end the entry that is kept is the first with the smallest difference of all. -/
theorem Smallest.exit (h : Smallest symbols count address s) (hpos : 0 < count)
    {r : List UInt8 × UInt64} (hturn : closestTurn symbols count address s = .inr r) :
    ∃ k < count, r = ((symbols k).name, address - (symbols k).address) ∧
      (∀ j < count, address - (symbols k).address ≤ address - (symbols j).address) ∧
      ∀ j < k, address - (symbols k).address < address - (symbols j).address := by
  unfold closestTurn at hturn
  by_cases hlt : s.i < count
  · simp only [if_pos hlt] at hturn
    split_ifs at hturn
  rw [if_neg hlt] at hturn
  cases hturn
  have hend : s.i = count := UInt64.le_antisymm h.le_count (UInt64.not_lt.1 hlt)
  have hsmallest := h.smallest
  rw [hend] at hsmallest
  rcases h.kept with ⟨hk, hdifference⟩ | ⟨hk, hdifference⟩
  · refine ⟨s.closestId, hend ▸ hk, ?_, ?_, ?_⟩
    · rw [hdifference]
    · rwa [← hdifference]
    · rw [← hdifference]
      exact h.first
  · -- no difference is less than the greatest, so that of the first entry is the greatest
    have hmax : ∀ d : UInt64, d ≤ UInt64.ofNat (2 ^ 64 - 1) := by
      intro d
      have hd := d.toNat_lt
      rw [UInt64.le_iff_toNat_le, UInt64.toNat_ofNat']
      omega
    have hfirst : address - (symbols 0).address = UInt64.ofNat (2 ^ 64 - 1) :=
      UInt64.le_antisymm (hmax _) (hdifference ▸ hsmallest 0 hpos)
    refine ⟨0, hpos, ?_, ?_, ?_⟩
    · rw [hk, hdifference, hfirst]
    · rwa [hfirst, ← hdifference]
    · intro j hj
      exact absurd hj UInt64.not_lt_zero

/-- **The symbol is the floor of the address.** Where some symbol is not above the address, `getSymbol`
returns the name of the first of those with the greatest such address, and its distance. -/
theorem getSymbol_floor (hex : ∃ i < count, (symbols i).address ≤ address) :
    ∃ k < count, (symbols k).address ≤ address ∧
      (∀ i < count, (symbols i).address ≤ address → (symbols i).address ≤ (symbols k).address) ∧
      (∀ i < k, (symbols i).address ≠ (symbols k).address) ∧
      ∃ fuel, getSymbol fuel symbols count address =
        some ((symbols k).name, address - (symbols k).address) := by
  obtain ⟨i, hi, hle⟩ := hex
  have hpos : 0 < count := UInt64.lt_of_le_of_lt UInt64.zero_le hi
  obtain ⟨fuel, r, hrun⟩ := WhileLoop.run_total (fun s : Closest => count.toNat - s.i.toNat)
    (fun s s' hs hturn => Smallest.turn hs hturn) (smallest_start symbols count address)
  obtain ⟨k, hk, rfl, hsmallest, hfirst⟩ := WhileLoop.run_invariant
    (fun s s' hs hturn => (Smallest.turn hs hturn).1) (fun s r hs hturn => hs.exit hpos hturn)
    (smallest_start symbols count address) hrun
  have hbelow : (symbols k).address ≤ address := by
    by_contra habove
    have hwraps := lt_difference (UInt64.not_le.1 habove)
    have hbest := UInt64.le_iff_toNat_le.1 (hsmallest i hi)
    rw [toNat_difference hle] at hbest
    omega
  refine ⟨k, hk, hbelow, fun j hj hjle => ?_, fun j hj heq => ?_, fuel, hrun⟩
  · have hbest := UInt64.le_iff_toNat_le.1 (hsmallest j hj)
    rw [toNat_difference hbelow, toNat_difference hjle] at hbest
    rw [UInt64.le_iff_toNat_le] at hjle hbelow ⊢
    omega
  · have hless := hfirst j hj
    rw [heq] at hless
    exact UInt64.lt_irrefl _ hless

/-- The symbols `a` at 40, and `b` and `c` at 16. -/
def threeSymbols (i : UInt64) : Symbol :=
  if i = 0 then ⟨40, [97]⟩ else if i = 1 then ⟨16, [98]⟩ else ⟨16, [99]⟩

/-- The symbol of 20 is the first of the two at 16, although the distance from 40 is taken too. -/
theorem getSymbol_floor_threeSymbols : ∃ fuel, getSymbol fuel threeSymbols 3 20 = some ([98], 4) := by
  obtain ⟨k, hk, hle, -, hfirst, fuel, hfuel⟩ :=
    @getSymbol_floor threeSymbols 3 20 ⟨1, by decide, by decide⟩
  have hcases : k = 0 ∨ k = 1 ∨ k = 2 := by
    have hlt : k.toNat < 3 := UInt64.lt_iff_toNat_lt.1 hk
    simp only [← UInt64.toNat_inj]
    have hvalues : (0 : UInt64).toNat = 0 ∧ (1 : UInt64).toNat = 1 ∧ (2 : UInt64).toNat = 2 := by decide
    omega
  rcases hcases with rfl | rfl | rfl
  · exact absurd hle (by decide)
  · exact ⟨fuel, hfuel⟩
  · exact absurd rfl (hfirst 1 (by decide))

end Symbols

end Naul
