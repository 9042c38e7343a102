import Naul.Allocator.Accounts
import Naul.Allocator.FirstFit

/-!
# What `getUsage` returns

`getUsage` adds up the sizes of the present records and takes off what has been marked unusable. `usage`
is that number; a scan that is left alone returns it (`getUsage_eq`), and in a session it is the sum of
the amounts of the held blocks (`run_usage`).

`getUsage` takes no lock, so that other threads can allocate and free between two turns of its loop
(`Watch`). The loop ends at as many present records as there were at its entry, and it looks at the slots
as they were then as long as nobody changes one that it has still to look at (`Spared`): `watch_usage`.
-/

namespace Naul

/-- `allocation->end - allocation->start`. -/
def Allocation.size (r : Allocation) : UInt64 := r.end' - r.start

namespace Allocator

open Fuel

/-- The bytes of the present records in the first `n` slots. -/
def bytesBelow (t : Allocator) (n : ℕ) : ℕ :=
  ∑ i ∈ Finset.range n, if (t.allocated i).present then (t.allocated i).size.toNat else 0

/-- The bytes of the present records, less those of the marked regions. -/
def usage (t : Allocator) : UInt64 := UInt64.ofNat (t.bytesBelow t.written) - t.unusable

section Scan

variable {t : Allocator} {s s' : Tally} {size : UInt64} {fuel n m : ℕ}

theorem bytesBelow_succ (t : Allocator) (n : ℕ) : t.bytesBelow (n + 1) =
    t.bytesBelow n + if (t.allocated n).present then (t.allocated n).size.toNat else 0 :=
  Finset.sum_range_succ ..

/-- Slots without a present record add nothing. -/
theorem bytesBelow_eq (hnm : n ≤ m) (habsent : ∀ i, n ≤ i → i < m → (t.allocated i).present = false) :
    t.bytesBelow m = t.bytesBelow n := by
  induction m, hnm using Nat.le_induction with
  | base => rfl
  | succ m hnm ih =>
    rw [bytesBelow_succ, habsent m hnm (Nat.lt_succ_self m),
      ih fun i hi hlt => habsent i hi (Nat.lt_succ_of_lt hlt)]
    rfl

/-- The variables of the loop are right about the slots it has passed. -/
structure Tallied (t : Allocator) (s : Tally) : Prop where
  le_written : s.allocation ≤ t.written
  count : s.count = t.presentBelow s.allocation
  size : s.size = UInt64.ofNat (t.bytesBelow s.allocation)

theorem tallied_start (t : Allocator) : Tallied t ⟨0, 0, 0⟩ where
  le_written := Nat.zero_le _
  count := tallyInv_start.2
  size := rfl

theorem Tallied.inv (hs : Tallied t s) : TallyInv t s := ⟨hs.le_written, hs.count⟩

/-- A turn that stays in the loop looks at a written slot. -/
theorem Tallied.turn (ht : Counted t) (hs : Tallied t s) (h : t.usageBody t.allocations s = .inl s') :
    Tallied t s' ∧ s.allocation < t.written ∧ s'.allocation = s.allocation + 1 := by
  obtain ⟨⟨hle, hcount⟩, -⟩ := tallyInv_step ht hs.inv h
  unfold usageBody at h
  split_ifs at h with hne hp <;> cases h
  · refine ⟨⟨hle, hcount, ?_⟩, hle, rfl⟩
    rw [bytesBelow_succ, if_pos hp, UInt64.ofNat_add, UInt64.ofNat_toNat, hs.size]
    rfl
  · refine ⟨⟨hle, hcount, ?_⟩, hle, rfl⟩
    rw [bytesBelow_succ, if_neg hp, hs.size]
    rfl

/-- The loop is left with the usage. -/
theorem Tallied.exit (ht : Counted t) (hs : Tallied t s) (h : t.usageBody t.allocations s = .inr size) :
    size = t.usage := by
  unfold usageBody at h
  split_ifs at h with heq
  cases h
  -- as many records have been passed as there are, so none is ahead
  have habsent : ∀ i, s.allocation ≤ i → i < t.written → (t.allocated i).present = false := by
    intro i hi hlt
    by_contra hp
    have hlive := mem_live.2 ⟨hlt, by simpa using hp⟩
    exact absurd (live_lt_of_eq ht (hs.count ▸ heq) hlive) (not_lt.2 hi)
  rw [usage, bytesBelow_eq hs.le_written habsent, hs.size]

/-- A scan that is left alone ends with the usage. -/
theorem Tallied.returns (ht : Counted t) (hs : Tallied t s) :
    ∃ n, WhileLoop.run (t.usageBody t.allocations) n s = some t.usage := by
  obtain ⟨n, size, h⟩ := WhileLoop.run_total (I := Tallied t) (fun s : Tally => t.written - s.allocation)
    (fun s s' hs hb => by
      obtain ⟨hs', hlt, hnext⟩ := hs.turn ht hb
      exact ⟨hs', by rw [hnext]; omega⟩) hs
  obtain rfl := WhileLoop.run_invariant (Q := fun size => size = t.usage)
    (fun s s' hs hb => (hs.turn ht hb).1) (fun s size hs hb => hs.exit ht hb) hs h
  exact ⟨n, h⟩

theorem getUsage_eq (ht : Counted t) (h : t.getUsage fuel = some size) : size = t.usage := by
  obtain ⟨n, hn⟩ := (tallied_start t).returns ht
  exact WhileLoop.run_unique h hn

end Scan

/-! ### The usage of a session -/

section Session

variable {t t' t₀ : Allocator} {s s' : Session} {fuel : ℕ}

theorem bytesBelow_written (t : Allocator) :
    t.bytesBelow t.written = (t.records.map fun r => r.size.toNat).sum := by
  rw [records, Multiset.map_map, bytesBelow, ← Finset.sum_filter]
  rfl

theorem markUnusable_unusable {start end' : UInt64} (h : t.markUnusable fuel start end' = some t') :
    t'.unusable = t.unusable + (end' - start) := by
  simp only [markUnusable, bind, Option.bind_eq_some_iff, pure, Option.some.injEq] at h
  obtain ⟨slot, -, rfl⟩ := h
  rfl

/-- The marked regions are all there is. -/
def Accounted (t : Allocator) : Prop := UInt64.ofNat (t.bytesBelow t.written) = t.unusable

theorem accounted_markAll {regions : List (UInt64 × UInt64)} (ht : Counted t) (h : Accounted t)
    (hrun : t.markAll fuel regions = some t₀) : Accounted t₀ := by
  refine (Trace.run_invariant (I := fun t => Counted t ∧ Accounted t) (fun t r t' ht hstep => ?_)
    ⟨ht, h⟩ hrun).2
  obtain ⟨slot, hrec⟩ := markUnusable_recorded ht.1 hstep
  refine ⟨hrec.counted ht.1, ?_⟩
  rw [Accounted, markUnusable_unusable hstep, ← ht.2, bytesBelow_written, hrec.records,
    Multiset.map_cons, Multiset.sum_cons, ← bytesBelow_written, Nat.add_comm, UInt64.ofNat_add,
    UInt64.ofNat_toNat]
  rfl

/-- The held blocks do not overlap, and each ends within the address space. -/
structure Packed (held : List Block) : Prop where
  apart : held.Pairwise fun b c => Apart b.record c.record
  sum : ∀ b ∈ held, b.pointer.toNat + b.amount.toNat < 2 ^ 64

theorem request_unusable {r : Request} (h : r.step fuel s = some s') :
    s'.table.unusable = s.table.unusable := by
  have hreserve : ∀ {amount p}, (s.table.reserve fuel amount p).bind (s.hold fuel amount) = some s' →
      s'.table.unusable = s.table.unusable := by
    intro amount p h
    obtain ⟨⟨value, t'⟩, hres, hhold⟩ := Option.bind_eq_some_iff.1 h
    obtain ⟨slot, -, rfl⟩ := Option.map_eq_some_iff.1 hhold
    simp only [reserve, bind, Option.bind_eq_some_iff, pure, Option.some.injEq, Prod.mk.injEq] at hres
    obtain ⟨v, -, slot, -, -, rfl⟩ := hres
    rfl
  cases r with
  | allocate amount => exact hreserve h
  | allocateAligned amount alignment => exact hreserve h
  | free k =>
    simp only [Request.step, bind, Option.bind_eq_some_iff, pure, Option.some.injEq] at h
    obtain ⟨b, -, t', hfree, rfl⟩ := h
    simp only [unallocate, bind, Option.bind_eq_some_iff, pure, Option.some.injEq] at hfree
    obtain ⟨slot, -, rfl⟩ := hfree
    rfl

/-- What a session keeps. -/
theorem Balanced.step {r : Request} (h : Balanced t₀ s) (hp : Packed s.held)
    (hr : r.Legal s ∧ r.Positive) (hstep : r.step fuel s = some s') :
    Balanced t₀ s' ∧ Packed s'.held := by
  have hhold : ∀ {amount p}, 1 ≤ amount → SumsFit s.table amount p →
      (s.table.reserve fuel amount p).bind (s.hold fuel amount) = some s' →
      Balanced t₀ s' ∧ Packed s'.held := by
    intro amount p hamount hsums hstep
    obtain ⟨b, t', rfl, -, hsize, hbalanced, hsum, hclear⟩ := h.hold hamount hsums hstep
    refine ⟨hbalanced, List.pairwise_cons.2 ⟨fun c hc => ?_, hp.apart⟩, fun c hc => ?_⟩
    · have hc := hclear c hc
      rw [← hsize] at hc
      exact hc
    · rcases List.mem_cons.1 hc with rfl | hc
      · rwa [hsize]
      · exact hp.sum c hc
  cases r with
  | allocate amount => exact hhold hr.2 hr.1.1 hstep
  | allocateAligned amount alignment => exact hhold hr.2 hr.1.2.1 hstep
  | free k =>
    simp only [Request.step, bind, Option.bind_eq_some_iff, pure, Option.some.injEq] at hstep
    obtain ⟨b, hb, t', hfree, rfl⟩ := hstep
    obtain ⟨hk, rfl⟩ := List.getElem?_eq_some_iff.1 hb
    refine ⟨h.free (List.getElem_cons_eraseIdx_perm hk).symm hfree, hp.apart.eraseIdx k, fun c hc => ?_⟩
    exact hp.sum c (List.mem_of_mem_eraseIdx hc)

/-- Disjoint subsets of a finite set have at most its elements together. -/
theorem sum_card_le {α : Type*} [DecidableEq α] {sets : List (Finset α)} {all : Finset α}
    (hdisjoint : sets.Pairwise Disjoint) (hsub : ∀ A ∈ sets, A ⊆ all) :
    (sets.map Finset.card).sum ≤ all.card := by
  induction sets generalizing all with
  | nil => exact Nat.zero_le _
  | cons A sets ih =>
    obtain ⟨hA, hsets⟩ := List.pairwise_cons.1 hdisjoint
    have hrest := @ih (all \ A) hsets fun B hB =>
      Finset.subset_sdiff.2 ⟨hsub B (List.mem_cons_of_mem A hB), (hA B hB).symm⟩
    have hcard := Finset.card_sdiff_add_card_eq_card (hsub A List.mem_cons_self)
    rw [List.map_cons, List.sum_cons]
    omega

/-- The addresses of a block. -/
def Block.addresses (b : Block) : Finset ℕ := Finset.Ico b.pointer.toNat (b.pointer.toNat + b.amount.toNat)

/-- Blocks that do not overlap fit into the address space together. -/
theorem Packed.sum_lt {held : List Block} (h : Packed held) :
    (held.map fun b => b.amount.toNat).sum < 2 ^ 64 := by
  have hend : ∀ b ∈ held, b.record.end'.toNat = b.pointer.toNat + b.amount.toNat := fun b hb => by
    rw [Block.record, UInt64.toNat_add, Nat.mod_eq_of_lt (h.sum b hb)]
  have hdisjoint : (held.map Block.addresses).Pairwise Disjoint := by
    rw [List.pairwise_map]
    refine h.apart.imp_of_mem fun {b c} hb hc hapart => ?_
    rw [Finset.disjoint_left]
    intro a ha ha'
    rw [Block.addresses, Finset.mem_Ico] at ha ha'
    rcases hapart with hle | hle <;>
      (rw [UInt64.le_iff_toNat_le] at hle
       simp only [hend b hb, hend c hc] at hle
       simp only [Block.record] at hle
       omega)
  -- so the blocks are disjoint sets of addresses, and their sizes add up to at most all addresses
  have hsub : ∀ A ∈ held.map Block.addresses, A ⊆ Finset.range (2 ^ 64 - 1) := by
    intro A hA
    obtain ⟨b, hb, rfl⟩ := List.mem_map.1 hA
    intro a ha
    have hsum := h.sum b hb
    rw [Block.addresses, Finset.mem_Ico] at ha
    rw [Finset.mem_range]
    omega
  have hle := sum_card_le hdisjoint hsub
  rw [List.map_map, Finset.card_range] at hle
  have hcards : held.map (Finset.card ∘ Block.addresses) = held.map fun b => b.amount.toNat :=
    List.map_congr_left fun b _ => by
      rw [Function.comp_apply, Block.addresses, Nat.card_Ico, Nat.add_sub_cancel_left]
  rw [hcards] at hle
  omega

theorem Balanced.usage_eq (h : Balanced t₀ s) (h₀ : Accounted t₀) (hp : Packed s.held)
    (hunusable : s.table.unusable = t₀.unusable) :
    s.table.usage.toNat = (s.held.map fun b => b.amount.toNat).sum := by
  have hsize : ∀ b : Block, b.record.size = b.amount := fun b => by
    rw [Allocation.size, Block.record, UInt64.add_comm, UInt64.add_sub_cancel]
  have hbytes : s.table.bytesBelow s.table.written =
      (s.held.map fun b => b.amount.toNat).sum + t₀.bytesBelow t₀.written := by
    rw [bytesBelow_written, bytesBelow_written, h.records, Multiset.map_add, Multiset.sum_add,
      Multiset.map_coe, Multiset.sum_coe, List.map_map]
    simp only [Function.comp_def, hsize]
  -- the subtraction takes off the marked regions, and what is left does not wrap
  rw [usage, hbytes, hunusable, ← h₀, UInt64.ofNat_add, UInt64.add_sub_cancel, UInt64.toNat_ofNat',
    Nat.mod_eq_of_lt hp.sum_lt]

/-- **Usage accounting.** After any list of non-empty regions has been marked, and in every state of a
session that asks for at least one byte each time, `getUsage` returns, and it returns the sum of the
amounts of the blocks that have been allocated and not freed. -/
theorem run_usage {memory : ℕ → Allocation} {regions : List (UInt64 × UInt64)}
    {requests : List Request} (hne : ∀ r ∈ regions, r.1 < r.2)
    (hmark : (initAllocator memory).markAll fuel regions = some t₀)
    (hrequests : Trace.Along (Request.step fuel) (fun s r => r.Legal s ∧ r.Positive) ⟨t₀, []⟩ requests)
    (hrun : Trace.run (Request.step fuel) ⟨t₀, []⟩ requests = some s) :
    (∃ n size, s.table.getUsage n = some size) ∧
    ∀ n size, s.table.getUsage n = some size →
      size.toNat = (s.held.map fun b => b.amount.toNat).sum := by
  have h₀ : Counted t₀ ∧ NonEmpty t₀ := by
    refine nonEmpty_markAll hne ⟨counted_initAllocator memory, ?_⟩ hmark
    simp [NonEmpty]
  have haccounted : Accounted t₀ := accounted_markAll (counted_initAllocator memory) rfl hmark
  obtain ⟨hbalanced, hpacked, hunusable⟩ := Trace.run_invariant_along
    (I := fun s => Balanced t₀ s ∧ Packed s.held ∧ s.table.unusable = t₀.unusable)
    (fun s r s' hs hr hstep => by
      obtain ⟨hbalanced, hpacked⟩ := hs.1.step hs.2.1 hr hstep
      exact ⟨hbalanced, hpacked, (request_unusable hstep).trans hs.2.2⟩)
    ⟨balanced_start h₀.1 h₀.2, ⟨List.Pairwise.nil, by simp⟩, rfl⟩ hrequests hrun
  refine ⟨getUsage_total hbalanced.counted, fun n size h => ?_⟩
  rw [getUsage_eq hbalanced.counted h]
  exact hbalanced.usage_eq haccounted hpacked hunusable

/-- The usage of a session that has allocated 16 bytes after one region has been marked. -/
theorem run_usage_boot :
    ∃ t₀ s, (initAllocator fun _ => ⟨true, 7, 9⟩).markAll 9 [(0x1000000, 0x1002000)] = some t₀ ∧
      Trace.run (Request.step 9) ⟨t₀, []⟩ [.allocate 16] = some s ∧
      ∀ n size, s.table.getUsage n = some size → size.toNat = 16 := by
  refine ⟨_, _, rfl, rfl, ?_⟩
  have hne : (0x1000000 : UInt64) < 0x1002000 := by decide
  have hpos : (1 : UInt64) ≤ 16 := by decide
  have h := @run_usage _ _ 9 (fun _ => ⟨true, 7, 9⟩) [(0x1000000, 0x1002000)] [.allocate 16]
    (List.forall_mem_singleton.2 hne) rfl
    ⟨⟨⟨@sumsFit_of_trail _ 9 _ _ _ rfl (by decide), nextFits_plain _ _⟩, hpos⟩, fun _ _ => trivial⟩ rfl
  exact h.2

end Session

/-! ### The calls of other threads -/

/-- Where the thread that calls `getUsage` is: in the loop, with the value of `allocations` that it has
read, or behind it. -/
inductive Place
  | scanning (allocations : ℕ) (s : Tally)
  | returned (size : UInt64)

/-- A call of `getUsage`, and the table that it shares with the other threads. -/
structure Watch where
  table : Allocator
  place : Place

/-- The start of a call. -/
def Watch.start (t : Allocator) : Watch := ⟨t, .scanning t.allocations ⟨0, 0, 0⟩⟩

/-- A turn of the loop of `getUsage`, or a whole call of another thread. -/
inductive Interleaving
  | turn
  | call (c : Call)

def Watch.step (fuel : ℕ) (w : Watch) : Interleaving → Option Watch
  | .turn =>
    match w.place with
    | .scanning allocations s =>
      match w.table.usageBody allocations s with
      | .inl s' => some ⟨w.table, .scanning allocations s'⟩
      | .inr size => some ⟨w.table, .returned size⟩
    | .returned _ => none
  | .call c => (c.step fuel w.table).map fun t => ⟨t, w.place⟩

def Interleaving.isTurn : Interleaving → Bool
  | .turn => true
  | .call _ => false

/-- The slot in which a call writes or clears a record. -/
def Call.slot (fuel : ℕ) (t : Allocator) : Call → Option ℕ
  | .allocate _ | .allocateAligned _ _ => t.emptySlot fuel
  | .unallocate pointer => t.matchSlot fuel pointer

/-- The number of present records from slot `a` up to slot `b`. -/
def presentBetween (t : Allocator) (a b : ℕ) : ℕ :=
  Nat.count (fun i => (t.allocated (a + i)).present) (b - a)

/-- The scan has still to look at the slot: it has not passed it, and the records before it do not
complete its count. -/
def Watch.Awaits (w : Watch) (slot : ℕ) : Prop :=
  match w.place with
  | .scanning allocations s =>
    s.allocation ≤ slot ∧ s.count + w.table.presentBetween s.allocation slot < allocations
  | .returned _ => False

/-- A call of another thread changes no slot that the scan has still to look at. -/
def Interleaving.Spared (fuel : ℕ) (w : Watch) : Interleaving → Prop
  | .turn => True
  | .call c => ∀ slot, c.slot fuel w.table = some slot → ¬ w.Awaits slot

section Watch

variable {t t' t₀ : Allocator} {s : Tally} {w w' : Watch} {fuel n : ℕ} {size : UInt64}

/-- A call leaves the other slots as they are, and what has been marked unusable. -/
theorem Call.step_slot {c : Call} (h : c.step fuel t = some t') :
    ∃ slot, c.slot fuel t = some slot ∧ (∀ i, i ≠ slot → t'.allocated i = t.allocated i) ∧
      t'.unusable = t.unusable := by
  have hreserve : ∀ {amount p}, (t.reserve fuel amount p).map Prod.snd = some t' →
      ∃ slot, t.emptySlot fuel = some slot ∧ (∀ i, i ≠ slot → t'.allocated i = t.allocated i) ∧
        t'.unusable = t.unusable := by
    intro amount p h
    obtain ⟨⟨value, u⟩, hres, rfl⟩ := Option.map_eq_some_iff.1 h
    simp only [reserve, bind, Option.bind_eq_some_iff, pure, Option.some.injEq, Prod.mk.injEq] at hres
    obtain ⟨v, -, slot, hslot, -, rfl⟩ := hres
    exact ⟨slot, hslot, fun i hi => Function.update_of_ne hi .., rfl⟩
  cases c with
  | allocate amount => exact hreserve h
  | allocateAligned amount alignment => exact hreserve h
  | unallocate pointer =>
    obtain ⟨slot, hslot, heq⟩ := Option.bind_eq_some_iff.1 (h : t.unallocate fuel pointer = some t')
    obtain rfl := Option.some.inj heq
    exact ⟨slot, hslot, fun i hi => Function.update_of_ne hi .., rfl⟩

theorem presentBelow_add_presentBetween (t : Allocator) {a b : ℕ} (h : a ≤ b) :
    t.presentBelow a + t.presentBetween a b = t.presentBelow b := by
  rw [presentBelow, presentBetween, presentBelow, ← Nat.count_add, Nat.add_sub_cancel' h]

/-- The invariant of a call of `getUsage` that has begun at the table `t₀`: its variables are right about
`t₀`, and so are the slots that it has still to look at. -/
structure Watched (t₀ : Allocator) (w : Watch) : Prop where
  unusable : w.table.unusable = t₀.unusable
  allocations : ∀ n s, w.place = .scanning n s → n = t₀.allocations
  tallied : ∀ n s, w.place = .scanning n s → Tallied t₀ s
  slots : ∀ n s, w.place = .scanning n s → ∀ i, s.allocation ≤ i → t₀.presentBelow i < n →
    w.table.allocated i = t₀.allocated i
  returned : ∀ size, w.place = .returned size → size = t₀.usage

theorem watched_start (t₀ : Allocator) : Watched t₀ (.start t₀) where
  unusable := rfl
  allocations n s h := by cases h; rfl
  tallied n s h := by cases h; exact tallied_start t₀
  slots n s h i _ _ := rfl
  returned size h := by cases h

/-- In a turn the loop sees what it would have seen at its entry. -/
theorem Watched.usageBody_eq (ht : Counted t₀) (h : Watched t₀ w) (hplace : w.place = .scanning n s) :
    w.table.usageBody n s = t₀.usageBody t₀.allocations s := by
  obtain rfl := h.allocations n s hplace
  have htallied := h.tallied _ s hplace
  unfold usageBody
  by_cases heq : s.count = t₀.allocations
  · rw [if_pos heq, if_pos heq, h.unusable]
  · -- fewer records than there were have been passed, so the slot has not been changed
    have hle : t₀.presentBelow s.allocation ≤ t₀.presentBelow t₀.written :=
      Nat.count_monotone _ htallied.le_written
    have hlt : t₀.presentBelow s.allocation < t₀.allocations := by
      rw [← htallied.count]
      rw [← htallied.count, ← card_live, ← ht] at hle
      omega
    rw [if_neg heq, if_neg heq, h.slots _ s hplace s.allocation le_rfl hlt]

/-- A slot whose record the scan still needs is awaited. -/
theorem Watched.awaits (h : Watched t₀ w) (hplace : w.place = .scanning n s) {i : ℕ}
    (hi : s.allocation ≤ i) (hlt : t₀.presentBelow i < n) : w.Awaits i := by
  have hsame : w.table.presentBetween s.allocation i = t₀.presentBetween s.allocation i := by
    unfold presentBetween
    rw [Nat.count_eq_card_filter_range, Nat.count_eq_card_filter_range]
    congr 1
    refine Finset.filter_congr fun k hk => ?_
    have hk : s.allocation + k ≤ i := by
      rw [Finset.mem_range] at hk
      omega
    have hbelow : t₀.presentBelow (s.allocation + k) < n :=
      lt_of_le_of_lt (Nat.count_monotone _ hk) hlt
    rw [h.slots n s hplace _ (Nat.le_add_right _ _) hbelow]
  simp only [Watch.Awaits, hplace]
  refine ⟨hi, ?_⟩
  rw [hsame, (h.tallied n s hplace).count, presentBelow_add_presentBetween t₀ hi]
  exact hlt

theorem Watched.turn (ht : Counted t₀) (h : Watched t₀ w) (hstep : w.step fuel .turn = some w') :
    Watched t₀ w' := by
  cases hplace : w.place with
  | returned size => simp [Watch.step, hplace] at hstep
  | scanning n s =>
    have hn := h.allocations n s hplace
    have htallied := h.tallied n s hplace
    have heq := h.usageBody_eq ht hplace
    cases hbody : w.table.usageBody n s with
    | inl s' =>
      simp only [Watch.step, hplace, hbody, Option.some.injEq] at hstep
      subst hstep
      obtain ⟨htallied', -, hnext⟩ := htallied.turn ht (heq.symm.trans hbody)
      refine ⟨h.unusable, ?_, ?_, ?_, ?_⟩
      · rintro _ _ ⟨⟩
        exact hn
      · rintro _ _ ⟨⟩
        exact htallied'
      · rintro _ _ ⟨⟩ i hi hlt
        exact h.slots n s hplace i (by omega) hlt
      · rintro _ ⟨⟩
    | inr size =>
      simp only [Watch.step, hplace, hbody, Option.some.injEq] at hstep
      subst hstep
      refine ⟨h.unusable, ?_, ?_, ?_, ?_⟩
      · rintro _ _ ⟨⟩
      · rintro _ _ ⟨⟩
      · rintro _ _ ⟨⟩
      · rintro _ ⟨⟩
        exact htallied.exit ht (heq.symm.trans hbody)

theorem Watched.step {e : Interleaving} (ht : Counted t₀) (h : Watched t₀ w) (he : e.Spared fuel w)
    (hstep : w.step fuel e = some w') : Watched t₀ w' := by
  cases e with
  | turn => exact h.turn ht hstep
  | call c =>
    obtain ⟨t', hcall, rfl⟩ := Option.map_eq_some_iff.1 hstep
    obtain ⟨slot, hslot, hsame, hunusable⟩ := Call.step_slot hcall
    refine ⟨hunusable.trans h.unusable, h.allocations, h.tallied, fun n s hplace i hi hlt => ?_,
      h.returned⟩
    have hne : i ≠ slot := by
      rintro rfl
      exact he i hslot (h.awaits hplace hi hlt)
    exact (hsame i hne).trans (h.slots n s hplace i hi hlt)

/-- The turns that the scan has still to take, with the one that leaves the loop. -/
def Watch.ahead (t₀ : Allocator) (w : Watch) : ℕ :=
  match w.place with
  | .scanning _ s => t₀.written - s.allocation + 1
  | .returned _ => 0

/-- Each turn takes one from the turns ahead. -/
theorem Watched.ahead {e : Interleaving} (ht : Counted t₀) (h : Watched t₀ w)
    (hstep : w.step fuel e = some w') :
    (if e.isTurn then 1 else 0) + w'.ahead t₀ ≤ w.ahead t₀ := by
  cases e with
  | call c =>
    obtain ⟨t', -, rfl⟩ := Option.map_eq_some_iff.1 hstep
    simp [Interleaving.isTurn, Watch.ahead]
  | turn =>
    cases hplace : w.place with
    | returned size => simp [Watch.step, hplace] at hstep
    | scanning n s =>
      cases hbody : w.table.usageBody n s with
      | inl s' =>
        simp only [Watch.step, hplace, hbody, Option.some.injEq] at hstep
        subst hstep
        obtain ⟨-, hlt, hnext⟩ :=
          (h.tallied n s hplace).turn ht ((h.usageBody_eq ht hplace).symm.trans hbody)
        simp only [Interleaving.isTurn, Watch.ahead, hplace, hnext, if_true]
        omega
      | inr size =>
        simp only [Watch.step, hplace, hbody, Option.some.injEq] at hstep
        subst hstep
        simp only [Interleaving.isTurn, Watch.ahead, hplace, if_true]
        omega

theorem Watched.turns_le {es : List Interleaving} (ht : Counted t₀) (h : Watched t₀ w)
    (hes : Trace.Along (Watch.step fuel) (fun w e => e.Spared fuel w) w es)
    (hrun : Trace.run (Watch.step fuel) w es = some w') :
    es.countP Interleaving.isTurn + w'.ahead t₀ ≤ w.ahead t₀ := by
  induction es generalizing w with
  | nil =>
    obtain rfl := Option.some.inj ((Trace.run_nil w).symm.trans hrun)
    exact (Nat.zero_add _).le
  | cons e es ih =>
    rw [Trace.run_cons] at hrun
    obtain ⟨w₁, hstep, hrest⟩ := Option.bind_eq_some_iff.1 hrun
    have hone := h.ahead ht hstep
    have hmany := ih (h.step ht hes.1 hstep) (hes.2 w₁ hstep) hrest
    rw [List.countP_cons]
    omega

/-- Left alone, the scan goes on as it would have gone on at its entry. -/
theorem Watched.returns (ht : Counted t₀) (h : Watched t₀ w) (hplace : w.place = .scanning n s) :
    ∃ k, WhileLoop.run (w.table.usageBody n) k s = some t₀.usage := by
  obtain ⟨k, hk⟩ := (h.tallied n s hplace).returns ht
  refine ⟨k, ?_⟩
  rw [← hk]
  refine WhileLoop.run_congr (I := fun s => Watched t₀ ⟨w.table, .scanning n s⟩) ?_ ?_ ?_ k
  · intro s s' hs hb
    have hstep : Watch.step 0 ⟨w.table, .scanning n s⟩ .turn = some ⟨w.table, .scanning n s'⟩ := by
      simp only [Watch.step, hb]
    exact hs.turn ht hstep
  · intro s hs
    exact Watched.usageBody_eq (w := ⟨w.table, .scanning n s⟩) ht hs rfl
  · rw [← hplace]
    exact h

/-- **`getUsage` among other threads.** Where no call of another thread changes a slot that the scan has
still to look at, the scan looks only at slots that had been written at its entry. It returns the usage at
its entry, after at most one turn for each of these slots and a last one, whatever the others do in
between and also when they stop. -/
theorem watch_usage {es : List Interleaving} (ht : Reachable t₀)
    (hes : Trace.Along (Watch.step fuel) (fun w e => e.Spared fuel w) (.start t₀) es)
    (hrun : Trace.run (Watch.step fuel) (.start t₀) es = some w) :
    (∀ n s, w.place = .scanning n s → (s.count ≠ n → s.allocation < t₀.written) ∧
      ∃ k, WhileLoop.run (w.table.usageBody n) k s = some t₀.usage) ∧
    es.countP Interleaving.isTurn ≤ t₀.written + 1 ∧
    ∀ size, w.place = .returned size → size = t₀.usage := by
  have hw : Watched t₀ w := Trace.run_invariant_along (fun w e w' hw he hstep =>
    hw.step ht.counted he hstep) (watched_start t₀) hes hrun
  refine ⟨fun n s hplace => ⟨fun hne => ?_, hw.returns ht.counted hplace⟩, ?_, hw.returned⟩
  · have htallied := hw.tallied n s hplace
    obtain rfl := hw.allocations n s hplace
    exact lt_written_of_ne ht.counted htallied.le_written (htallied.count ▸ hne)
  · exact (Nat.le_add_right _ _).trans ((watched_start t₀).turns_le ht.counted hes hrun)

/-- The table after `allocate(16)` and `allocate(32)`. -/
def twoBlocks : Allocator :=
  let boot := initAllocator fun _ => ⟨true, 7, 9⟩
  (((boot.allocate 9 16).bind fun p => p.2.allocate 9 32).map Prod.snd).getD boot

theorem reachable_twoBlocks : Reachable twoBlocks :=
  .allocate (.allocate (.initAllocator fun _ => ⟨true, 7, 9⟩)
    (rfl : allocate 9 16 _ = some (0x1000000, _))) (rfl : allocate 9 32 _ = some (0x1000010, _))

/-- The first block is freed and 8 bytes are allocated in its slot when the scan has passed it: the two
blocks of the entry are counted. -/
theorem watch_usage_passed :
    ∃ w, Trace.run (Watch.step 9) (.start twoBlocks)
        [.turn, .call (.unallocate 0x1000000), .call (.allocate 8), .turn, .turn] = some w ∧
      w.place = .returned 48 ∧ twoBlocks.usage = 48 := by
  have hes : Trace.Along (Watch.step 9) (fun w e => e.Spared 9 w) (.start twoBlocks)
      [.turn, .call (.unallocate 0x1000000), .call (.allocate 8), .turn, .turn] := by
    refine ⟨trivial, fun w hw => ?_⟩
    cases hw
    refine ⟨fun slot hslot => ?_, fun w hw => ?_⟩
    · cases hslot
      rintro ⟨hle, -⟩
      exact absurd hle (by decide)
    · cases hw
      refine ⟨fun slot hslot => ?_, fun _ _ => ⟨trivial, fun _ _ => ⟨trivial, fun _ _ => trivial⟩⟩⟩
      cases hslot
      rintro ⟨hle, -⟩
      exact absurd hle (by decide)
  obtain ⟨-, -, hreturned⟩ := watch_usage (w := ⟨_, .returned 48⟩) reachable_twoBlocks hes rfl
  exact ⟨_, rfl, rfl, (hreturned 48 rfl).symm⟩

/-- The second block is freed before the scan has reached it. The scan passes its slot, looks at the slot
behind it, which has never been written, and counts what the memory holds there: it returns 18, while the
usage was 48 and then 16. -/
theorem watch_torn :
    Reachable twoBlocks ∧ (∃ i ∈ twoBlocks.live, (twoBlocks.allocated i).start = 0x1000010) ∧
      (∃ w, Trace.run (Watch.step 9) (.start twoBlocks)
          [.turn, .call (.unallocate 0x1000010), .turn] = some w ∧
        w.place = .scanning 2 ⟨16, 2, 1⟩ ∧ w.table.written = 2) ∧
      (Trace.run (Watch.step 9) (.start twoBlocks)
        [.turn, .call (.unallocate 0x1000010), .turn, .turn, .turn]).map Watch.place =
          some (.returned 18) ∧
      ∀ fs ∈ [.turn, .call (.unallocate 0x1000010), .turn, .turn, .turn].inits,
        (Trace.run (Watch.step 9) (.start twoBlocks) fs).map (fun u => u.table.usage) ≠ some 18 :=
  ⟨reachable_twoBlocks, ⟨1, by decide, rfl⟩, ⟨_, rfl, rfl, rfl⟩, rfl, by decide⟩

end Watch

end Allocator
end Naul
