import Naul.List

/-!
# A ring as a sequence (`include/list.h`)

`iterateList` and `deiterateList` take one step of a walk, forward and backward. `whileBody` is a turn
of `while (step(list, &element)) { ... }` for either of them. With `iterateList` it is the turn that
the other loops over rings are made of (`whileBody_iterateList`), and `deiterateList` is `iterateList`
over the links with their directions exchanged.

`ring_is_sequence` says what the functions of the header do to the sequence that a ring represents.
-/

namespace Naul

open LinkRing

variable {α : Type*} [DecidableEq α]

/-- `iterateList(list, &element)`: `*element` afterwards, and what is returned. -/
def iterateList (l : Links α) (list element : α) : α × Bool :=
  let element := l.next element
  (element, element ≠ list)

/-- `deiterateList(list, &element)`. -/
def deiterateList (l : Links α) (list element : α) : α × Bool :=
  let element := l.prev element
  (element, element ≠ list)

/-- One turn of `while (step(list, &element)) { ... }`. The body `turn` may leave the loop; when the
condition fails the result is made by `done`, from `element` as the step has left it. -/
def whileBody {σ ρ : Type*} (step : α → α × Bool) (turn : σ → α → σ ⊕ ρ) (done : σ → α → ρ)
    (s : σ × α) : (σ × α) ⊕ ρ :=
  let (element, more) := step s.2
  if more then
    match turn s.1 element with
    | .inl s' => .inl (s', element)
    | .inr r => .inr r
  else .inr (done s.1 element)

/-- The elements that a walk from the sentinel visits, and where `element` points when it ends. -/
def visits (fuel : ℕ) (step : α → α × Bool) (list : α) : Option (List α × α) :=
  WhileLoop.run (whileBody step (fun visited element => .inl (visited ++ [element])) Prod.mk) fuel
    ([], list)

variable {l : Links α} {head other e : α} {xs ys : List α}

/-! ### Walks -/

theorem whileBody_iterateList {σ ρ : Type*} (l : Links α) (list : α) (turn : σ → α → σ ⊕ ρ)
    (done : σ → α → ρ) :
    whileBody (iterateList l list) turn done = iterate l list turn fun s => done s list := by
  funext s
  by_cases hnext : l.next s.2 = list
  · simp [whileBody, iterateList, iterate, hnext]
  · cases hturn : turn s.1 (l.next s.2) <;> simp [whileBody, iterateList, iterate, hnext, hturn]

theorem deiterateList_eq (l : Links α) (list : α) :
    deiterateList l list = iterateList l.flip list := rfl

/-- The loop of `listLength` is over `iterateList`. -/
theorem listLength_iterateList (fuel : ℕ) (l : Links α) (list : α) :
    listLength fuel l list =
      WhileLoop.run (whileBody (iterateList l list) (fun n _ => .inl (n + 1)) fun n _ => n) fuel
        (0, list) := by
  rw [listLength, whileBody_iterateList]

theorem visits_iterateList (h : IsRing l head xs) :
    visits (xs.length + 1) (iterateList l head) head = some (xs, head) := by
  rw [visits, whileBody_iterateList, run_iterate h, foldUntil_collect, List.nil_append]

theorem visits_deiterateList (h : IsRing l head xs) :
    visits (xs.length + 1) (deiterateList l head) head = some (xs.reverse, head) := by
  rw [deiterateList_eq, ← List.length_reverse]
  exact visits_iterateList h.reverse

/-! ### Edits -/

omit [DecidableEq α] in
/-- The nodes that `linkList` stores to are in the ring that it makes. -/
theorem linkList_changed_subset (h : IsRing l head xs) :
    [l.prev head, head, e] ⊆ head :: (xs ++ [e]) := by
  have hlast : l.prev head ∈ (head :: xs) ++ [e] := List.mem_append_left _ h.prev_head_mem
  intro a ha
  simp only [List.mem_cons, List.not_mem_nil, or_false] at ha
  rcases ha with rfl | rfl | rfl
  · exact hlast
  · exact List.mem_cons_self
  · simp

omit [DecidableEq α] in
/-- The nodes that `unlinkList` stores to are in the ring. -/
theorem unlinkList_changed_subset (h : IsRing l head xs) (he : e ∈ xs) :
    [l.prev e, l.next e] ⊆ head :: xs := by
  have he' : e ∈ head :: xs := List.mem_cons_of_mem _ he
  intro a ha
  simp only [List.mem_cons, List.not_mem_nil, or_false] at ha
  rcases ha with rfl | rfl
  · exact h.prev_mem_cons he'
  · exact h.next_mem_cons he'

/-- Among the rings that share no node with the one an element is linked into, exactly those are kept
that the element is not in: `linkList` does not take it out of a ring it may be in. -/
theorem linkList_keeps_iff (h : IsRing l head xs) (hother : IsRing l other ys)
    (hapart : List.Disjoint (other :: ys) (head :: xs)) :
    IsRing (linkList l head e) other ys ↔ e ∉ other :: ys := by
  constructor
  · intro hring he
    have hnext := hring.next_mem_cons he
    have hhead : (linkList l head e).next e = head := by simp [linkList]
    rw [hhead] at hnext
    exact hapart hnext List.mem_cons_self
  · intro he
    refine (linkList_sameBut l head e).isRing_iff (fun a ha hmem => ?_) |>.2 hother
    have hnew : a ∈ (head :: xs) ++ [e] := linkList_changed_subset h hmem
    rcases List.mem_append.1 hnew with hold | hae
    · exact hapart ha hold
    · exact he (List.mem_singleton.1 hae ▸ ha)

/-- **A ring represents a sequence.** Linking a new node appends it; besides the new node and the
sentinel it changes the node that was the last one, and no ring apart from the one it makes. Unlinking
an element removes it; that changes the two nodes beside it, and no ring apart from this one. Walks
visit the sequence forward and backward and end at the sentinel, and `listLength` counts it. -/
theorem ring_is_sequence (h : IsRing l head xs) :
    (∀ e, e ∉ head :: xs →
      IsRing (linkList l head e) head (xs ++ [e]) ∧
      SameBut [l.prev head, head, e] l (linkList l head e) ∧
      ∀ other ys, List.Disjoint (other :: ys) (head :: (xs ++ [e])) →
        (IsRing (linkList l head e) other ys ↔ IsRing l other ys)) ∧
    (∀ e, e ∈ xs →
      IsRing (unlinkList l e) head (xs.erase e) ∧
      SameBut [l.prev e, l.next e] l (unlinkList l e) ∧
      ∀ other ys, List.Disjoint (other :: ys) (head :: xs) →
        (IsRing (unlinkList l e) other ys ↔ IsRing l other ys)) ∧
    visits (xs.length + 1) (iterateList l head) head = some (xs, head) ∧
    visits (xs.length + 1) (deiterateList l head) head = some (xs.reverse, head) ∧
    listLength (xs.length + 1) l head = some xs.length := by
  refine ⟨fun e he => ?_, fun e he => ?_, visits_iterateList h, visits_deiterateList h,
    listLength_eq h⟩
  · have hsame := linkList_sameBut l head e
    refine ⟨isRing_linkList h he, hsame, fun other ys hapart => ?_⟩
    exact hsame.isRing_iff fun a ha hmem => hapart ha (linkList_changed_subset h hmem)
  · have hsame := unlinkList_sameBut l e
    refine ⟨isRing_unlinkList_erase h he, hsame, fun other ys hapart => ?_⟩
    exact hsame.isRing_iff fun a ha hmem => hapart ha (unlinkList_changed_subset h he hmem)

/-- A ring of two elements. -/
theorem ring_is_sequence_two :
    ∃ l : Links ℕ, IsRing l 0 [1, 2] ∧ IsRing (linkList l 0 3) 0 [1, 2, 3] ∧
      IsRing (unlinkList l 1) 0 [2] ∧ visits 3 (iterateList l 0) 0 = some ([1, 2], 0) ∧
      visits 3 (deiterateList l 0) 0 = some ([2, 1], 0) ∧ listLength 3 l 0 = some 2 := by
  have hone : IsRing (linkList (emptyRing ℕ) 0 1) 0 [1] :=
    isRing_linkList (isRing_emptyRing 0) (by decide)
  have htwo := isRing_linkList (e := 2) hone (by decide)
  obtain ⟨hlink, hunlink, hforward, hbackward, hlength⟩ := ring_is_sequence htwo
  exact ⟨_, htwo, (hlink 3 (by decide)).1, (hunlink 1 (by decide)).1, hforward, hbackward, hlength⟩

end Naul
