import Mathlib.Tactic

/-!
# Ring buffers

A ring buffer has a cell for every value of its index type, a head, where the producer writes, and a
tail, where the consumer reads. Both only ever go up by one, and come round to the same cells again. The
buffer is empty when they are equal, so that one cell has to stay free.

The producer stores into the cell at the head and then advances the head (`store`, `publish`); the
consumer reads the cell at the tail and then advances the tail. Each of the four is a step of its own.
`Holds` says what is between the indices. A `Log` records what has been sent and what has been received,
and `Fifo` relates the two: what has been sent is what has been received, followed by what the buffer
holds.
-/

/-- `index n` is the index after `n` increments from the first one; `size` of them lead back to it. -/
class WrappingIndex (ι : Type*) [Add ι] [One ι] where
  size : ℕ
  size_pos : 0 < size
  index : ℕ → ι
  index_succ : ∀ n, index (n + 1) = index n + 1
  index_eq_iff : ∀ m n, index m = index n ↔ m % size = n % size
  index_surjective : ∀ i, ∃ n, index n = i

structure RingBuffer (ι α : Type*) where
  cell : ι → α
  head : ι
  tail : ι

namespace RingBuffer

open WrappingIndex

variable {ι α : Type*}

/-- Store into the cell at the head. -/
def store [DecidableEq ι] (b : RingBuffer ι α) (a : α) : RingBuffer ι α :=
  { b with cell := Function.update b.cell b.head a }

section Indices

variable [Add ι] [One ι]

/-- Advance the head. -/
def publish (b : RingBuffer ι α) : RingBuffer ι α := { b with head := b.head + 1 }

/-- Advance the tail. -/
def advance (b : RingBuffer ι α) : RingBuffer ι α := { b with tail := b.tail + 1 }

/-- There is no cell to spare: were the head advanced, the buffer would seem empty. -/
def Full (b : RingBuffer ι α) : Prop := b.head + 1 = b.tail

instance decidableFull [DecidableEq ι] (b : RingBuffer ι α) : Decidable b.Full :=
  inferInstanceAs (Decidable (_ = _))

variable [WrappingIndex ι]

/-- From the tail up to the head the buffer holds `pending`; `n` counts the increments of the tail. -/
def HoldsFrom (b : RingBuffer ι α) (n : ℕ) (pending : List α) : Prop :=
  b.tail = index n ∧ b.head = index (n + pending.length) ∧ pending.length < size ι ∧
    ∀ i a, pending[i]? = some a → b.cell (index (n + i)) = a

def Holds (b : RingBuffer ι α) (pending : List α) : Prop := ∃ n, b.HoldsFrom n pending

variable {b : RingBuffer ι α} {pending rest : List α} {a : α} {n : ℕ}

/-- Fewer than `size` increments lead to another index. -/
theorem index_add_ne (n : ℕ) {i j : ℕ} (hij : i < j) (hj : j < size ι) :
    (index (n + i) : ι) ≠ index (n + j) := by
  rw [Ne, index_eq_iff]
  intro h
  have hmod : i ≡ j [MOD size ι] := Nat.ModEq.add_left_cancel' n h
  rw [Nat.ModEq, Nat.mod_eq_of_lt (hij.trans hj), Nat.mod_eq_of_lt hj] at hmod
  exact hij.ne hmod

theorem holds_nil (h : b.head = b.tail) : b.Holds [] := by
  obtain ⟨n, hn⟩ := index_surjective b.tail
  exact ⟨n, hn.symm, h.trans hn.symm, size_pos, fun i a ha => by cases ha⟩

/-- The head's cell is none of those that are held. -/
theorem Holds.store [DecidableEq ι] (h : b.Holds pending) (a : α) : (b.store a).Holds pending := by
  obtain ⟨n, htail, hhead, hroom, hcell⟩ := h
  refine ⟨n, htail, hhead, hroom, fun i c hc => ?_⟩
  have hi : i < pending.length := (List.getElem?_eq_some_iff.1 hc).1
  have hne : (index (n + i) : ι) ≠ b.head := hhead ▸ index_add_ne n hi hroom
  exact (Function.update_of_ne hne ..).trans (hcell i c hc)

/-- The buffer is full with one cell less than there are. -/
theorem Holds.full_iff (h : b.Holds pending) : b.Full ↔ pending.length + 1 = size ι := by
  obtain ⟨n, htail, hhead, hroom, -⟩ := h
  rw [Full, htail, hhead, ← index_succ, Nat.add_assoc]
  constructor
  · intro heq
    by_contra hne
    exact index_add_ne n (Nat.succ_pos _) (by omega) heq.symm
  · intro hlen
    rw [hlen, index_eq_iff, Nat.add_mod_right]

theorem Holds.publish (h : b.Holds pending) (ha : b.cell b.head = a) (hroom : ¬ b.Full) :
    b.publish.Holds (pending ++ [a]) := by
  rw [h.full_iff] at hroom
  obtain ⟨n, htail, hhead, hlt, hcell⟩ := h
  refine ⟨n, htail, ?_, ?_, fun i c hc => ?_⟩
  · rw [List.length_append, List.length_singleton, ← Nat.add_assoc, index_succ, ← hhead]
    rfl
  · rw [List.length_append, List.length_singleton]
    omega
  · rcases Nat.lt_or_ge i pending.length with hi | hi
    · rw [List.getElem?_append_left hi] at hc
      exact hcell i c hc
    · have hlast := (List.getElem?_eq_some_iff.1 hc).1
      rw [List.length_append, List.length_singleton] at hlast
      obtain rfl : i = pending.length := by omega
      rw [List.getElem?_append_right le_rfl, Nat.sub_self] at hc
      cases hc
      rw [← hhead]
      exact ha

/-- A cell from the head on is none of those that are held. -/
theorem HoldsFrom.update [DecidableEq ι] (h : b.HoldsFrom n pending) {j : ℕ} (hj : pending.length ≤ j)
    (hsize : j < size ι) (a : α) :
    HoldsFrom { b with cell := Function.update b.cell (index (n + j)) a } n pending := by
  obtain ⟨htail, hhead, hroom, hcell⟩ := h
  refine ⟨htail, hhead, hroom, fun i c hc => ?_⟩
  have hi : i < pending.length := (List.getElem?_eq_some_iff.1 hc).1
  exact (Function.update_of_ne (index_add_ne n (hi.trans_le hj) hsize) ..).trans (hcell i c hc)

/-- The head goes past several cells at once. -/
theorem HoldsFrom.publish_many (h : b.HoldsFrom n pending) (rest : List α)
    (hcell : ∀ i a, rest[i]? = some a → b.cell (index (n + pending.length + i)) = a)
    (hroom : pending.length + rest.length < size ι) :
    HoldsFrom { b with head := index (n + pending.length + rest.length) } n (pending ++ rest) := by
  obtain ⟨htail, -, -, hold⟩ := h
  refine ⟨htail, ?_, ?_, fun i a ha => ?_⟩
  · rw [List.length_append, Nat.add_assoc]
  · rwa [List.length_append]
  · rcases Nat.lt_or_ge i pending.length with hi | hi
    · rw [List.getElem?_append_left hi] at ha
      exact hold i a ha
    · rw [List.getElem?_append_right hi] at ha
      have hnew := hcell _ a ha
      rwa [Nat.add_assoc, Nat.add_sub_cancel' hi] at hnew

/-- What is at the tail is the first of what is held. -/
theorem Holds.take (h : b.Holds pending) (hne : b.tail ≠ b.head) :
    pending.head? = some (b.cell b.tail) := by
  obtain ⟨n, htail, hhead, -, hcell⟩ := h
  cases pending with
  | nil => exact absurd (htail.trans hhead.symm) hne
  | cons a rest =>
    rw [htail, ← hcell 0 a rfl]
    rfl

theorem Holds.advance (h : b.Holds (a :: rest)) : b.advance.Holds rest := by
  obtain ⟨n, htail, hhead, hroom, hcell⟩ := h
  refine ⟨n + 1, ?_, ?_, (Nat.lt_succ_self _).trans hroom, fun i c hc => ?_⟩
  · rw [index_succ, ← htail]
    rfl
  · rw [Nat.add_right_comm]
    exact hhead
  · rw [Nat.add_right_comm]
    exact hcell (i + 1) c hc

end Indices

/-! ### What has gone through a buffer -/

/-- What the producer has sent, what the consumer has received, and what it has read but not yet
released. -/
structure Log (α : Type*) where
  sent : List α
  received : List α
  taken : Option α

namespace Log

def send (l : Log α) (a : α) : Log α := { l with sent := l.sent ++ [a] }

def take (l : Log α) (a : α) : Log α := { l with taken := some a }

def receive (l : Log α) (a : α) : Log α := { l with received := l.received ++ [a], taken := none }

end Log

section Fifo

variable [Add ι] [One ι] [WrappingIndex ι] {b : RingBuffer ι α} {l : Log α} {a : α}

/-- **First in, first out.** What has been sent is what has been received, in the same order, and then
what the buffer holds, of which the consumer may have read the first. -/
def Fifo (b : RingBuffer ι α) (l : Log α) : Prop :=
  ∃ pending, b.Holds pending ∧ l.sent = l.received ++ pending ∧
    ∀ a, l.taken = some a → pending.head? = some a

theorem fifo_nil (h : b.head = b.tail) : b.Fifo ⟨[], [], none⟩ :=
  ⟨[], holds_nil h, rfl, fun a ha => by cases ha⟩

theorem Fifo.store [DecidableEq ι] (h : b.Fifo l) (a : α) : (b.store a).Fifo l := by
  obtain ⟨pending, hholds, hsent, htaken⟩ := h
  exact ⟨pending, hholds.store a, hsent, htaken⟩

theorem Fifo.publish (h : b.Fifo l) (ha : b.cell b.head = a) (hroom : ¬ b.Full) :
    b.publish.Fifo (l.send a) := by
  obtain ⟨pending, hholds, hsent, htaken⟩ := h
  refine ⟨pending ++ [a], hholds.publish ha hroom, ?_, fun c hc => ?_⟩
  · rw [Log.send, hsent, List.append_assoc]
  · rw [List.head?_append, htaken c hc]
    rfl

theorem Fifo.take (h : b.Fifo l) (hne : b.tail ≠ b.head) : b.Fifo (l.take (b.cell b.tail)) := by
  obtain ⟨pending, hholds, hsent, -⟩ := h
  refine ⟨pending, hholds, hsent, fun c hc => ?_⟩
  obtain rfl := Option.some.inj hc
  exact hholds.take hne

theorem Fifo.advance (h : b.Fifo l) (ha : l.taken = some a) : b.advance.Fifo (l.receive a) := by
  obtain ⟨pending, hholds, hsent, htaken⟩ := h
  obtain ⟨rest, rfl⟩ := List.head?_eq_some_iff.1 (htaken a ha)
  refine ⟨rest, hholds.advance, ?_, fun c hc => by cases hc⟩
  rw [Log.receive, List.append_assoc]
  exact hsent

end Fifo

end RingBuffer
