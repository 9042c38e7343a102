import Naul.Lib.Fuel
import Naul.Allocator.Ownership

/-!
# The accounts of a session

A session that starts from the table `t₀` owes it the blocks it holds: the present records are those of
`t₀` and those of the held blocks (`Balanced`). Each request changes both sides alike, so a session that
has given everything back has restored the present records (`Balanced.settled`). Each rule also says that
the call returns.

A block that is freed by another address than its own stays (`unallocate_keeps`).
-/

namespace Naul
namespace Allocator

open Fuel

/-- A sound session, with nothing in the table but the records of `t₀` and of the held blocks. -/
structure Balanced (t₀ : Allocator) (s : Session) : Prop extends Sound t₀ s where
  records : s.table.records = (s.held.map Block.record : Multiset Allocation) + t₀.records

/-- With enough fuel, the requests are legal one after the other. -/
def FitsAlong (s : Session) (rs : List Request) : Prop :=
  ∃ m, ∀ n, m ≤ n → Trace.Along (Request.step n) (fun s r => r.Legal s) s rs

/-- What an allocation of `amount` bytes gives a session before the requests `rs`. -/
structure Taken (t₀ : Allocator) (s : Session) (amount : UInt64) (rs : List Request) (b : Block)
    (t' : Allocator) : Prop where
  size : b.amount = amount
  balanced : Balanced t₀ ⟨t', b :: s.held⟩
  fits : FitsAlong ⟨t', b :: s.held⟩ rs
  sum : b.pointer.toNat + amount.toNat < 2 ^ 64
  clear : ∀ c ∈ s.held, Clear b.pointer amount c.record

section Steady

theorem steady_reserve (t : Allocator) (amount : UInt64) (p : Placement) :
    Steady fun n => t.reserve n amount p := fun _ _ _ hmn h => reserve_mono hmn h

theorem steady_unallocate (t : Allocator) (pointer : UInt64) : Steady fun n => t.unallocate n pointer :=
  fun _ _ _ hmn h => unallocate_mono hmn h

theorem steady_step (s : Session) (r : Request) : Steady fun n => r.step n s := by
  have hhold : ∀ amount res, Steady fun n => s.hold n amount res := fun amount res m n s' hmn h => by
    obtain ⟨slot, hslot, hs'⟩ := Option.map_eq_some_iff.1 h
    exact Option.map_eq_some_iff.2 ⟨slot, WhileLoop.run_mono hmn hslot, hs'⟩
  cases r with
  | allocate amount => exact steady_bind (steady_reserve _ _ _) (hhold amount)
  | allocateAligned amount alignment => exact steady_bind (steady_reserve _ _ _) (hhold amount)
  | free k =>
    intro m n s' hmn h
    simp only [Request.step, bind, Option.bind_eq_some_iff] at h ⊢
    obtain ⟨b, hb, t', hfree, hs'⟩ := h
    exact ⟨b, hb, t', unallocate_mono hmn hfree, hs'⟩

end Steady

section Rules

variable {t₀ t t' : Allocator} {s s' : Session} {amount : UInt64} {p : Placement}
  {rs : List Request} {r : Request} {b : Block} {held rest : List Block}

theorem balanced_start (ht : Counted t₀) (hne : NonEmpty t₀) : Balanced t₀ ⟨t₀, []⟩ where
  toSound := sound_start ht hne
  records := by simp

/-- **Nothing is held**: the present records are those of the beginning. -/
theorem Balanced.settled (h : Balanced t₀ ⟨t, []⟩) : t.records = t₀.records := by
  have hrecords := h.records
  simpa using hrecords

theorem Balanced.perm (h : Balanced t₀ ⟨t, held⟩) (hp : held.Perm rest) : Balanced t₀ ⟨t, rest⟩ where
  counted := h.counted
  nonEmpty := h.nonEmpty
  owned := fun b hb => h.owned b (hp.mem_iff.2 hb)
  unique := fun b hb => h.unique b (hp.mem_iff.2 hb)
  distinct := (hp.pairwise_iff fun hne => Ne.symm hne).1 h.distinct
  marked := fun i hi => by
    obtain ⟨hlive, heq, hheld⟩ := h.marked i hi
    exact ⟨hlive, heq, fun b hb => hheld b (hp.mem_iff.2 hb)⟩
  records := by
    rw [h.records]
    congr 1
    exact Multiset.coe_eq_coe.2 (hp.map Block.record)

theorem FitsAlong.legal (h : FitsAlong s (r :: rs)) : r.Legal s := by
  obtain ⟨m, hm⟩ := h
  exact (hm m le_rfl).1

theorem FitsAlong.next (h : FitsAlong s (r :: rs)) (hstep : Returns (fun n => r.step n s) s') : FitsAlong s' rs := by
  obtain ⟨m, hm⟩ := h
  obtain ⟨k, hk⟩ := hstep
  refine ⟨max m k, fun n hn => ?_⟩
  exact (hm n (le_of_max_le_left hn)).2 s' (steady_step s r (le_of_max_le_right hn) hk)

/-- What a session holds after an allocation. -/
theorem Balanced.hold {fuel : ℕ} (h : Balanced t₀ s) (hamount : 1 ≤ amount)
    (hsums : SumsFit s.table amount p)
    (hstep : (s.table.reserve fuel amount p).bind (s.hold fuel amount) = some s') :
    ∃ b t', s' = ⟨t', b :: s.held⟩ ∧ s.table.reserve fuel amount p = some (b.pointer, t') ∧
      b.amount = amount ∧ Balanced t₀ ⟨t', b :: s.held⟩ ∧
      b.pointer.toNat + amount.toNat < 2 ^ 64 ∧ ∀ c ∈ s.held, Clear b.pointer amount c.record := by
  have hsound := h.toSound.hold hamount hsums hstep
  obtain ⟨⟨value, t'⟩, hres, hhold⟩ := Option.bind_eq_some_iff.1 hstep
  obtain ⟨slot, hslot, rfl⟩ := Option.map_eq_some_iff.1 hhold
  obtain ⟨slot', hfind, hslot', hrec⟩ := reserve_recorded h.counted hres
  obtain rfl := Option.some.inj (hslot.symm.trans hslot')
  refine ⟨⟨value, slot, amount⟩, t', rfl, hres, rfl, ⟨hsound, ?_⟩, ?_, fun c hc => ?_⟩
  · rw [hrec.records, h.records, List.map_cons, ← Multiset.cons_coe, Multiset.cons_add]
    rfl
  · obtain ⟨s, hs, rfl⟩ := findAddress_visited hfind
    exact hsums s hs
  · obtain ⟨hlive, hrecord⟩ := h.owned c hc
    rw [← hrecord]
    exact findAddress_clear h.counted hfind c.slot hlive

/-- The rule for an allocation. -/
theorem Balanced.reserve (h : Balanced t₀ s) (hamount : 1 ≤ amount) (hadvances : p.Advances)
    (hsums : SumsFit s.table amount p) (hnexts : NextFits s.table amount p)
    (hstep : ∀ n, r.step n s = (s.table.reserve n amount p).bind (s.hold n amount))
    (hfits : FitsAlong s (r :: rs)) :
    ∃ b t', Returns (fun n => s.table.reserve n amount p) (b.pointer, t') ∧
      Taken t₀ s amount rs b t' := by
  obtain ⟨n, value, t', hres⟩ := reserve_total h.counted hadvances hnexts
  obtain ⟨slot, -, hslot, -⟩ := reserve_recorded h.counted hres
  have hheld : r.step n s = some ⟨t', ⟨value, slot, amount⟩ :: s.held⟩ := by
    rw [hstep, hres, Option.bind_some, Session.hold, hslot, Option.map_some]
  obtain ⟨b, u, hs', hret, hsize, hbalanced, hsum, hclear⟩ :=
    h.hold hamount hsums ((hstep n).symm.trans hheld)
  rw [hs'] at hheld
  exact ⟨b, u, ⟨n, hret⟩, hsize, hbalanced, hfits.next ⟨n, hheld⟩, hsum, hclear⟩

theorem Balanced.allocate (h : Balanced t₀ s) (hamount : 1 ≤ amount)
    (hfits : FitsAlong s (.allocate amount :: rs)) :
    ∃ b t', Returns (fun n => s.table.allocate n amount) (b.pointer, t') ∧ Taken t₀ s amount rs b t' ∧
      memoryStart ≤ b.pointer := by
  obtain ⟨hsums, hnexts⟩ := hfits.legal
  obtain ⟨b, t', hret, htaken⟩ := h.reserve hamount plain_advances hsums hnexts (fun _ => rfl) hfits
  obtain ⟨n, hn⟩ := hret
  exact ⟨b, t', ⟨n, hn⟩, htaken, memoryStart_le_allocate hn h.counted⟩

theorem Balanced.allocateAligned {alignment : UInt64} (h : Balanced t₀ s) (hamount : 1 ≤ amount)
    (hfits : FitsAlong s (.allocateAligned amount alignment :: rs)) :
    ∃ b t', Returns (fun n => s.table.allocateAligned n amount alignment) (b.pointer, t') ∧
      Taken t₀ s amount rs b t' ∧ alignment.toNat ∣ b.pointer.toNat := by
  obtain ⟨halignment, hsums, hnexts⟩ := hfits.legal
  obtain ⟨b, t', hret, htaken⟩ :=
    h.reserve hamount (aligned_advances alignment) hsums hnexts (fun _ => rfl) hfits
  obtain ⟨n, hn⟩ := hret
  exact ⟨b, t', ⟨n, hn⟩, htaken, (allocateAligned_value halignment hnexts hn h.counted).2⟩

/-- The record of a held block is cleared by its address. -/
theorem Balanced.free {fuel : ℕ} (h : Balanced t₀ ⟨t, held⟩) (hp : held.Perm (b :: rest))
    (hfree : t.unallocate fuel b.pointer = some t') : Balanced t₀ ⟨t', rest⟩ := by
  have hb := h.perm hp
  obtain ⟨hlive, hrecord⟩ := hb.owned b List.mem_cons_self
  have heq : t' = t.release b.slot := hb.toSound.unallocate_eq List.mem_cons_self hfree
  have hrel : Released t b.slot t' := heq ▸ released_release hlive
  refine ⟨?_, ?_⟩
  · have hfreed : Sound t₀ ⟨t.release b.slot, (b :: rest).eraseIdx 0⟩ := hb.toSound.free rfl
    rw [heq]
    exact hfreed
  · have hrecords := hrel.records.symm.trans hb.records
    rw [hrecord, List.map_cons, ← Multiset.cons_coe, Multiset.cons_add] at hrecords
    exact (Multiset.cons_inj_right _).1 hrecords

/-- The rule for `unallocate` of a held block. -/
theorem Balanced.release (h : Balanced t₀ ⟨t, held⟩) (hp : held.Perm (b :: rest)) :
    ∃ t', Returns (fun n => t.unallocate n b.pointer) t' ∧ Balanced t₀ ⟨t', rest⟩ := by
  obtain ⟨hlive, hrecord⟩ := h.owned b (hp.mem_iff.2 List.mem_cons_self)
  obtain ⟨n, t', hfree⟩ := unallocate_total hlive
  rw [show (t.allocated b.slot).start = b.pointer from congrArg Allocation.start hrecord] at hfree
  exact ⟨t', ⟨n, hfree⟩, h.free hp hfree⟩

/-- No record of the beginning has the start of a held block. -/
theorem Balanced.start_ne (h : Balanced t₀ s) (hb : b ∈ s.held) :
    ∀ a ∈ t₀.records, a.start ≠ b.pointer := by
  intro a ha hstart
  obtain ⟨i, hi, rfl⟩ := Multiset.mem_map.1 ha
  obtain ⟨hlive, heq, hslot⟩ := h.marked i hi
  exact hslot b hb (h.unique b hb i hlive (heq ▸ hstart)).symm

/-- Two held blocks have different addresses. -/
theorem Balanced.pointer_ne (h : Balanced t₀ ⟨t, held⟩) (hp : held.Perm (b :: rest)) :
    ∀ c ∈ rest, c.pointer ≠ b.pointer := by
  intro c hc hpointer
  have hb := h.perm hp
  obtain ⟨hlive, hrecord⟩ := hb.owned c (List.mem_cons_of_mem b hc)
  have hslot := hb.unique b List.mem_cons_self c.slot hlive
    ((congrArg Allocation.start hrecord).trans hpointer)
  exact (List.pairwise_cons.1 hb.distinct).1 c hc hslot.symm

/-- A record of another start stays. -/
theorem unallocate_keeps {i fuel : ℕ} {pointer : UInt64} {a : Allocation} (hi : i ∈ t.live)
    (ha : t.allocated i = a) (hne : a.start ≠ pointer) (h : t.unallocate fuel pointer = some t') :
    i ∈ t'.live ∧ t'.allocated i = a := by
  simp only [Allocator.unallocate, bind, Option.bind_eq_some_iff, pure, Option.some.injEq] at h
  obtain ⟨slot, hslot, rfl⟩ := h
  have hne' : i ≠ slot := by
    rintro rfl
    exact hne (ha ▸ (matchSlot_spec hslot).1.2)
  obtain ⟨hlt, hpresent⟩ := mem_live.1 hi
  have hsame : (t.release slot).allocated i = t.allocated i := Function.update_of_ne hne' ..
  refine ⟨mem_live.2 ⟨?_, hsame ▸ hpresent⟩, hsame.trans ha⟩
  exact lt_of_lt_of_le hlt (le_max_left _ _)

end Rules

end Allocator
end Naul
