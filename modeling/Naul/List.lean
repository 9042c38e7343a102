import Naul.Lib.LinkRing

/-!
# Intrusive lists (`include/list.h`)

Every registry of the kernel is a circular list threaded through its records, with a sentinel that
is a bare `List`. The stores of `linkList` and `unlinkList` are modelled in source order;
`IsRing.linkList` and `IsRing.unlinkList` say that on a well-formed ring they append and remove.

Nothing stops a caller from unlinking the sentinel. `isRing_unlinkList_head` and
`traversal_diverges` say what that does.
-/

namespace Naul

open LinkRing

variable {α : Type*} [DecidableEq α]

def setNext (l : Links α) (a b : α) : Links α := { l with next := Function.update l.next a b }

def setPrev (l : Links α) (a b : α) : Links α := { l with prev := Function.update l.prev a b }

@[simp] theorem setNext_next (l : Links α) (a b x : α) :
    (setNext l a b).next x = if x = a then b else l.next x := Function.update_apply ..

@[simp] theorem setNext_prev (l : Links α) (a b x : α) : (setNext l a b).prev x = l.prev x := rfl

@[simp] theorem setPrev_next (l : Links α) (a b x : α) : (setPrev l a b).next x = l.next x := rfl

@[simp] theorem setPrev_prev (l : Links α) (a b x : α) :
    (setPrev l a b).prev x = if x = a then b else l.prev x := Function.update_apply ..

/-- The four stores of `linkList(list, element)`, in order. -/
def linkList (l : Links α) (list element : α) : Links α :=
  let l := setNext l (l.prev list) element
  let l := setNext l element list
  let l := setPrev l element (l.prev list)
  setPrev l list element

/-- The two stores of `unlinkList(element)`, in order. -/
def unlinkList (l : Links α) (element : α) : Links α :=
  let l := setNext l (l.prev element) (l.next element)
  setPrev l (l.next element) (l.prev element)

/-- The variable `element` after `while (iterateList(list, &element)) { if (p) { break; } }`: the
first element with `p`, or the sentinel. -/
def findElement (fuel : ℕ) (l : Links α) (list : α) (p : α → Bool) : Option α :=
  WhileLoop.run (iterate l list (fun (_ : Unit) x => if p x then .inr x else .inl ()) fun _ => list)
    fuel ((), list)

/-- The registries' removal: search as in `findElement`, then `unlinkList(element)`. -/
def unlinkFound (fuel : ℕ) (l : Links α) (list : α) (p : α → Bool) : Option (α × Links α) := do
  let element ← findElement fuel l list p
  return (element, unlinkList l element)

/-- The elements that `while (iterateList(list, &element))` visits. -/
def traverse (fuel : ℕ) (l : Links α) (list : α) : Option (List α) :=
  WhileLoop.run (iterate l list (fun visited x => .inl (visited ++ [x])) fun visited => visited)
    fuel ([], list)

def listLength (fuel : ℕ) (l : Links α) (list : α) : Option ℕ :=
  WhileLoop.run (iterate l list (fun n _ => .inl (n + 1)) fun n => n) fuel (0, list)

variable {l l' : Links α} {head e : α} {xs ys zs : List α}

/-- Every node points to itself: with any sentinel an empty ring. -/
def emptyRing (α : Type*) : Links α := ⟨fun a => a, fun a => a⟩

omit [DecidableEq α] in
theorem isRing_emptyRing (head : α) : IsRing (emptyRing α) head [] :=
  ⟨List.nodup_singleton _, by simp [emptyRing, Linked]⟩

/-- **`linkList` appends.** -/
theorem isRing_linkList (h : IsRing l head xs) (he : e ∉ head :: xs) :
    IsRing (linkList l head e) head (xs ++ [e]) := by
  have hlast : l.prev head ≠ e := fun hl => he (hl ▸ h.prev_head_mem)
  have hhead : e ≠ head := fun hl => he (hl ▸ List.mem_cons_self)
  refine h.append he ?_ ?_ ?_ ?_ (fun a ha hne => ?_) (fun b hb => ?_)
  · simp [linkList, hlast]
  · simp [linkList, hhead]
  · simp [linkList]
  · simp [linkList]
  · have hae : a ≠ e := fun hl => he (hl ▸ ha)
    simp [linkList, hae, hne]
  · have hbe : b ≠ e := fun hl => he (hl ▸ List.mem_cons_of_mem _ hb)
    simp [linkList, hbe, h.ne_head hb]

/-- **`unlinkList` removes.** -/
theorem isRing_unlinkList (h : IsRing l head (ys ++ e :: zs)) :
    IsRing (unlinkList l e) head (ys ++ zs) := by
  have hne := h.prev_ne
  refine h.erase ?_ ?_ (fun a ha => ?_) (fun b hb => ?_)
  · simp [unlinkList]
  · simp [unlinkList, hne.symm]
  · simp [unlinkList, ha]
  · simp [unlinkList, hne.symm, hb]

/-- The same, of an element wherever it is. -/
theorem isRing_unlinkList_erase (h : IsRing l head xs) (he : e ∈ xs) :
    IsRing (unlinkList l e) head (xs.erase e) := by
  obtain ⟨ys, zs, rfl⟩ := List.append_of_mem he
  have hys : e ∉ ys := by
    have hnodup := (List.nodup_cons.1 h.nodup).2
    rw [List.nodup_middle, List.nodup_cons] at hnodup
    exact fun hmem => hnodup.1 (List.mem_append_left _ hmem)
  rw [List.erase_append_right _ hys, List.erase_cons_head]
  exact isRing_unlinkList h

/-- `linkList` stores to the sentinel, the node before it and the new element. -/
theorem linkList_sameBut (l : Links α) (head e : α) :
    SameBut [l.prev head, head, e] l (linkList l head e) := by
  intro a ha
  simp only [List.mem_cons, List.not_mem_nil, or_false, not_or] at ha
  obtain ⟨hlast, hhead, hae⟩ := ha
  constructor
  · simp [linkList, hlast, hae]
  · simp [linkList, hhead, hae]

/-- `unlinkList` stores to the nodes before and after the element. -/
theorem unlinkList_sameBut (l : Links α) (e : α) :
    SameBut [l.prev e, l.next e] l (unlinkList l e) := by
  intro a ha
  simp only [List.mem_cons, List.not_mem_nil, or_false, not_or] at ha
  obtain ⟨hprev, hnext⟩ := ha
  constructor
  · simp [unlinkList, hprev]
  · simp [unlinkList, hnext]

/-- `linkList` leaves the nodes alone that are in no list it changes. -/
theorem linkList_frame (h : IsRing l head xs) {a : α} (ha : a ∉ head :: xs) (hae : a ≠ e) :
    (linkList l head e).next a = l.next a ∧ (linkList l head e).prev a = l.prev a := by
  have hlast : a ≠ l.prev head := fun hl => ha (hl ▸ h.prev_head_mem)
  have hhead : a ≠ head := fun hl => ha (hl ▸ List.mem_cons_self)
  exact linkList_sameBut l head e a (by simp [hlast, hhead, hae])

/-- So does `unlinkList`. -/
theorem unlinkList_frame (h : IsRing l head xs) (he : e ∈ head :: xs) {a : α} (ha : a ∉ head :: xs) :
    (unlinkList l e).next a = l.next a ∧ (unlinkList l e).prev a = l.prev a := by
  have hprev : a ≠ l.prev e := fun hl => ha (hl ▸ h.prev_mem_cons he)
  have hnext : a ≠ l.next e := fun hl => ha (hl ▸ h.next_mem_cons he)
  exact unlinkList_sameBut l e a (by simp [hprev, hnext])

/-- The search of a registry. -/
theorem findElement_eq (h : IsRing l head xs) (p : α → Bool) :
    findElement (xs.length + 1) l head p = some ((xs.find? p).getD head) := by
  rw [findElement, run_iterate h, foldUntil_find]

/-- The search ends at the first element with `p`. -/
theorem findElement_first (h : IsRing l head (ys ++ e :: zs)) {p : α → Bool}
    (hys : ∀ y ∈ ys, p y = false) (he : p e = true) :
    findElement ((ys ++ e :: zs).length + 1) l head p = some e := by
  rw [findElement_eq h, List.find?_append, List.find?_eq_none.2 fun y hy => by simp [hys y hy],
    List.find?_cons_of_pos he]
  rfl

/-- A search that meets no element ends at the sentinel. -/
theorem findElement_absent (h : IsRing l head xs) {p : α → Bool} (hp : ∀ x ∈ xs, p x = false) :
    findElement (xs.length + 1) l head p = some head := by
  rw [findElement_eq h, List.find?_eq_none.2 fun x hx => by simp [hp x hx]]
  rfl

theorem listLength_eq (h : IsRing l head xs) :
    listLength (xs.length + 1) l head = some xs.length := by
  rw [listLength, run_iterate h, foldUntil_foldl]
  simp

theorem traverse_congr (hnext : l'.next = l.next) (fuel : ℕ) :
    traverse fuel l' head = traverse fuel l head := by
  unfold traverse
  rw [iterate_congr hnext]

theorem traverse_eq (h : IsRing l head xs) : traverse (xs.length + 1) l head = some xs := by
  rw [traverse, run_iterate h, foldUntil_collect, List.nil_append]

/-- The links and the sentinel determine the elements. -/
theorem isRing_unique (h : IsRing l head xs) (h' : IsRing l head ys) : xs = ys :=
  WhileLoop.run_unique (traverse_eq h) (traverse_eq h')

section Registry

variable {β : Type*} {f : β → α} {d : List β} {p : α → Bool} {q : β → Bool}

/-- The search of a registry whose elements are those of a list `d`. -/
theorem findElement_map (h : IsRing l head (d.map f)) (hpq : ∀ x ∈ d, p (f x) = q x) :
    findElement ((d.map f).length + 1) l head p = some (((d.find? q).map f).getD head) := by
  rw [findElement_eq h, List.find?_map]
  congr 3
  exact List.find?_congr hpq

/-- The removal takes the first one with `q` out of the list. -/
theorem unlinkFound_map (h : IsRing l head (d.map f)) (hpq : ∀ x ∈ d, p (f x) = q x)
    (hmem : ∃ x ∈ d, q x = true) :
    ∃ x l', unlinkFound ((d.map f).length + 1) l head p = some (f x, l') ∧ d.find? q = some x ∧
      IsRing l' head ((d.eraseP q).map f) := by
  obtain ⟨w, hw, hqw⟩ := hmem
  obtain ⟨x, ys, zs, hys, hqx, rfl, herase⟩ := List.exists_of_eraseP hw hqw
  have hfind : (ys ++ x :: zs).find? q = some x := by
    rw [List.find?_append, List.find?_eq_none.2 hys, List.find?_cons_of_pos hqx]
    rfl
  refine ⟨x, unlinkList l (f x), ?_, hfind, ?_⟩
  · rw [unlinkFound, findElement_map h hpq, hfind]
    rfl
  · rw [herase, List.map_append]
    rw [List.map_append, List.map_cons] at h
    exact isRing_unlinkList h

end Registry

/-! ### Unlinking the sentinel -/

/-- Unlinking the sentinel of an empty ring changes nothing. -/
theorem unlinkList_head_nil (h : IsRing l head []) : unlinkList l head = l := by
  obtain ⟨hnext, hprev⟩ := h.linked_last (show [head] = [] ++ [head] from rfl)
  ext x
  · simp only [unlinkList, setPrev_next, setNext_next, hnext, hprev]
    split_ifs with hx
    · rw [hx, hnext]
    · rfl
  · simp only [unlinkList, setPrev_prev, setNext_prev, setNext_next, hnext, hprev, if_true]
    split_ifs with hx
    · rw [hx, hprev]
    · rfl

/-- After the sentinel of a ring with elements is unlinked, the step forward from every node leads to
an element. -/
theorem unlinkList_head_next_mem (h : IsRing l head xs) (hne : xs ≠ []) {a : α}
    (ha : a ∈ head :: xs) : (unlinkList l head).next a ∈ xs := by
  have hnext : (unlinkList l head).next a = if a = l.prev head then l.next head else l.next a := by
    simp [unlinkList]
  rw [hnext]
  split_ifs with hlast
  · obtain ⟨x, ys, rfl⟩ := List.exists_cons_of_ne_nil hne
    rw [(h.linked (show head :: x :: ys = [] ++ head :: x :: ys from rfl)).1]
    exact List.mem_cons_self
  · exact h.next_mem ha hlast

/-- **No traversal that starts at the sentinel ends after the sentinel has been unlinked from a ring
with elements.** -/
theorem traversal_diverges (h : IsRing l head xs) (hne : xs ≠ []) {σ ρ : Type*} (f : σ → α → σ)
    (done : σ → ρ) (s : σ) (fuel : ℕ) :
    WhileLoop.run (iterate (unlinkList l head) head (fun s x => .inl (f s x)) done) fuel (s, head) =
      none := by
  refine WhileLoop.run_eq_none (I := fun s => s.2 ∈ head :: xs) (fun s hs => ?_)
    (s := (s, head)) List.mem_cons_self fuel
  have hmem := unlinkList_head_next_mem h hne hs
  refine ⟨(f s.1 ((unlinkList l head).next s.2), (unlinkList l head).next s.2), ?_,
    List.mem_cons_of_mem _ hmem⟩
  simp [iterate, h.ne_head hmem]

/-- **Unlinking the sentinel keeps a ring exactly when it has no elements.** -/
theorem isRing_unlinkList_head (h : IsRing l head xs) :
    IsRing (unlinkList l head) head xs ↔ xs = [] := by
  constructor
  · intro h'
    by_contra hne
    have hrun := listLength_eq h'
    rw [listLength, traversal_diverges h hne (fun n _ => n + 1)] at hrun
    cases hrun
  · rintro rfl
    rwa [unlinkList_head_nil h]

/-- A removal whose search meets no element unlinks the sentinel, so that it keeps the ring exactly
when there is nothing to keep. -/
theorem unlinkFound_absent_iff (h : IsRing l head xs) {p : α → Bool} (hp : ∀ x ∈ xs, p x = false) :
    (∃ fuel e l', unlinkFound fuel l head p = some (e, l') ∧ IsRing l' head xs) ↔ xs = [] := by
  have hfound := findElement_absent h hp
  rw [← isRing_unlinkList_head h]
  constructor
  · rintro ⟨fuel, e, l', hrun, hring⟩
    simp only [unlinkFound, bind, Option.bind_eq_some_iff, pure, Option.some.injEq,
      Prod.mk.injEq] at hrun
    obtain ⟨x, hx, rfl, rfl⟩ := hrun
    rwa [WhileLoop.run_unique hx hfound] at hring
  · intro hring
    exact ⟨xs.length + 1, head, unlinkList l head, by simp [unlinkFound, hfound], hring⟩

end Naul
