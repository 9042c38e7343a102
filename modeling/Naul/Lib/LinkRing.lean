import Naul.Lib.WhileLoop
import Mathlib.Data.List.Chain
import Mathlib.Data.List.Nodup

/-!
# Circular doubly linked lists

A node of an intrusive list holds a forward and a backward pointer; `Links` are the two pointers of
every node. `IsRing l head xs` says that the nodes `xs` form, with the sentinel `head`, a circular
list in both directions and in this order.

* `IsRing.append` and `IsRing.erase` are the two edits, stated by the pointers the edited links must
  have, so that any order of stores that produces them is covered. `SameBut.isRing_iff` is the frame
  of an edit: a ring without changed nodes stays as it was.
* `Links.flip` reads every ring backward.
* `iterate` is the loop that visits a ring from its sentinel, with a body that may leave the loop;
  `run_iterate` says that it is `foldUntil` over the elements. `visit` is the same for a ring whose
  sentinel is an element.
-/

namespace LinkRing

/-- The two pointers of every node. -/
@[ext] structure Links (α : Type*) where
  next : α → α
  prev : α → α

variable {α : Type*}

/-- `b` comes directly after `a`. -/
def Linked (l : Links α) (a b : α) : Prop := l.next a = b ∧ l.prev b = a

/-- The nodes `xs` form a circular list with the sentinel `head`. -/
structure IsRing (l : Links α) (head : α) (xs : List α) : Prop where
  nodup : (head :: xs).Nodup
  chain : ((head :: xs) ++ [head]).IsChain (Linked l)

variable {l l' : Links α} {head a b e : α} {xs ys zs : List α}

/-! ### Chains -/

/-- A chain depends on the forward pointers of all but its last node and on the backward pointers of
all but its first. -/
theorem chain_congr (h : xs.IsChain (Linked l)) (hnext : ∀ a ∈ xs.dropLast, l'.next a = l.next a)
    (hprev : ∀ b ∈ xs.tail, l'.prev b = l.prev b) : xs.IsChain (Linked l') := by
  induction xs with
  | nil => exact .nil
  | cons a xs ih =>
    cases xs with
    | nil => exact .singleton a
    | cons b xs =>
      rw [List.isChain_cons_cons] at h ⊢
      rw [List.dropLast_cons_cons] at hnext
      refine ⟨⟨?_, ?_⟩, ih h.2 (fun c hc => hnext c (List.mem_cons_of_mem _ hc))
        (fun c hc => hprev c (List.mem_cons_of_mem _ hc))⟩
      · rw [hnext a List.mem_cons_self]
        exact h.1.1
      · rw [hprev b List.mem_cons_self]
        exact h.1.2

/-- A ring depends on the pointers of its own nodes alone. -/
theorem IsRing.congr (h : IsRing l head xs)
    (hsame : ∀ a ∈ head :: xs, l'.next a = l.next a ∧ l'.prev a = l.prev a) : IsRing l' head xs := by
  refine ⟨h.nodup, chain_congr h.chain (fun a ha => ?_) fun b hb => ?_⟩
  · rw [List.dropLast_concat] at ha
    exact (hsame a ha).1
  · rw [List.cons_append, List.tail_cons, List.mem_append, List.mem_singleton] at hb
    rcases hb with hb | rfl
    · exact (hsame b (List.mem_cons_of_mem _ hb)).2
    · exact (hsame b List.mem_cons_self).2

/-- `l'` has the pointers of `l` but for those of the nodes `changed`. -/
def SameBut (changed : List α) (l l' : Links α) : Prop :=
  ∀ a ∉ changed, l'.next a = l.next a ∧ l'.prev a = l.prev a

/-- A ring without changed nodes is neither made nor broken. -/
theorem SameBut.isRing_iff {changed : List α} (h : SameBut changed l l')
    (hapart : List.Disjoint (head :: xs) changed) : IsRing l' head xs ↔ IsRing l head xs := by
  constructor
  · intro hring
    refine hring.congr fun a ha => ?_
    obtain ⟨hnext, hprev⟩ := h a (hapart ha)
    exact ⟨hnext.symm, hprev.symm⟩
  · intro hring
    exact hring.congr fun a ha => h a (hapart ha)

theorem IsRing.ne_head (h : IsRing l head xs) (ha : a ∈ xs) : a ≠ head := by
  rintro rfl
  exact (List.nodup_cons.1 h.nodup).1 ha

/-- Two nodes that follow each other in the list are linked. -/
theorem IsRing.linked (h : IsRing l head xs) (hs : head :: xs = ys ++ a :: b :: zs) :
    Linked l a b := by
  have hc := h.chain
  rw [hs, List.append_assoc, List.cons_append, List.cons_append, List.isChain_split] at hc
  exact (List.isChain_cons_cons.1 hc.2).1

/-- The last node is linked to the sentinel. -/
theorem IsRing.linked_last (h : IsRing l head xs) (hs : head :: xs = ys ++ [a]) :
    Linked l a head := by
  have hc := h.chain
  rw [hs, List.append_assoc, List.singleton_append, List.isChain_split] at hc
  exact (List.isChain_cons_cons.1 hc.2).1

theorem exists_last (head : α) (xs : List α) : ∃ ys a, head :: xs = ys ++ [a] := by
  induction xs using List.reverseRecOn with
  | nil => exact ⟨[], head, rfl⟩
  | append_singleton xs b _ => exact ⟨head :: xs, b, rfl⟩

theorem IsRing.prev_head_mem (h : IsRing l head xs) : l.prev head ∈ head :: xs := by
  obtain ⟨ys, a, hs⟩ := exists_last head xs
  rw [(h.linked_last hs).2, hs]
  simp

/-- An element does not follow itself. -/
theorem IsRing.prev_ne (h : IsRing l head (ys ++ e :: zs)) : l.prev e ≠ e := by
  obtain ⟨ps, p, hp⟩ := exists_last head ys
  have hs : head :: (ys ++ e :: zs) = ps ++ p :: e :: zs := by
    rw [← List.cons_append, hp, List.append_assoc, List.singleton_append]
  rw [(h.linked hs).2]
  have hnodup := h.nodup
  rw [hs, List.nodup_append] at hnodup
  rintro rfl
  exact (List.nodup_cons.1 hnodup.2.1).1 List.mem_cons_self

/-- From every node the step backward leads to a node. -/
theorem IsRing.prev_mem_cons (h : IsRing l head xs) (ha : a ∈ head :: xs) :
    l.prev a ∈ head :: xs := by
  rcases List.mem_cons.1 ha with rfl | ha
  · exact h.prev_head_mem
  · obtain ⟨ys, zs, rfl⟩ := List.append_of_mem ha
    obtain ⟨ps, p, hp⟩ := exists_last head ys
    have hs : head :: (ys ++ a :: zs) = ps ++ p :: a :: zs := by
      rw [← List.cons_append, hp, List.append_assoc, List.singleton_append]
    rw [(h.linked hs).2, hs]
    simp

/-- From every node but the last the step forward leads to an element. -/
theorem IsRing.next_mem (h : IsRing l head xs) (ha : a ∈ head :: xs) (hne : a ≠ l.prev head) :
    l.next a ∈ xs := by
  obtain ⟨ps, qs, hs⟩ := List.append_of_mem ha
  cases qs with
  | nil => exact absurd (h.linked_last hs).2.symm hne
  | cons b qs =>
    rw [(h.linked hs).1]
    cases ps with
    | nil =>
      cases hs
      exact List.mem_cons_self
    | cons p ps =>
      rw [List.cons_append, List.cons.injEq] at hs
      rw [hs.2]
      simp

/-- The ring read from another node: the nodes after it, and round to it again. -/
theorem IsRing.chain_from (h : IsRing l head xs) (hs : head :: xs = ys ++ a :: zs) :
    (a :: (zs ++ ys ++ [a])).IsChain (Linked l) := by
  have hc := h.chain
  rw [hs, List.append_assoc, List.cons_append, List.isChain_split] at hc
  cases ys with
  | nil =>
    rw [List.nil_append, List.cons.injEq] at hs
    rw [List.append_nil, ← hs.1]
    exact hs.1 ▸ hc.2
  | cons y ys =>
    rw [List.cons_append, List.cons.injEq] at hs
    rw [← hs.1] at hc ⊢
    rw [List.append_assoc, List.cons_append, ← List.cons_append, List.isChain_split]
    exact ⟨hc.2, hc.1⟩

/-- The same nodes with their two pointers exchanged. -/
def Links.flip (l : Links α) : Links α := ⟨l.prev, l.next⟩

/-- **Read backward, a ring has its elements in reverse order.** -/
theorem IsRing.reverse (h : IsRing l head xs) : IsRing l.flip head xs.reverse := by
  constructor
  · rw [List.nodup_cons, List.mem_reverse, List.nodup_reverse]
    exact List.nodup_cons.1 h.nodup
  · have hreverse : head :: xs.reverse ++ [head] = (head :: xs ++ [head]).reverse := by simp
    rw [hreverse, List.isChain_reverse]
    exact h.chain.imp fun a b hl => ⟨hl.2, hl.1⟩

/-! ### Edits -/

/-- **Appending a node.** The last node and the sentinel are linked through `e`. -/
theorem IsRing.append (h : IsRing l head xs) (he : e ∉ head :: xs)
    (hnext_last : l'.next (l.prev head) = e) (hprev_e : l'.prev e = l.prev head)
    (hnext_e : l'.next e = head) (hprev_head : l'.prev head = e)
    (hnext : ∀ a ∈ head :: xs, a ≠ l.prev head → l'.next a = l.next a)
    (hprev : ∀ b ∈ xs, l'.prev b = l.prev b) : IsRing l' head (xs ++ [e]) := by
  obtain ⟨ys, a, hs⟩ := exists_last head xs
  have hlast : l.prev head = a := (h.linked_last hs).2
  have hnodup := h.nodup
  rw [hs] at hnodup
  -- inside the old nodes no pointer that matters has changed
  have hold : (head :: xs).IsChain (Linked l') := by
    refine chain_congr (List.isChain_append.1 h.chain).1 (fun b hb => hnext b ?_ ?_) hprev
    · exact List.mem_of_mem_dropLast hb
    · rw [hs, List.dropLast_concat] at hb
      rw [hlast]
      rintro rfl
      exact (List.nodup_append.1 hnodup).2.2 b hb b List.mem_cons_self rfl
  constructor
  · rw [← List.cons_append, List.nodup_append]
    refine ⟨h.nodup, List.nodup_singleton e, fun x hx y hy => ?_⟩
    rw [List.mem_singleton] at hy
    rintro rfl
    exact he (hy ▸ hx)
  · rw [← List.cons_append, List.append_assoc, hs, List.append_assoc, List.singleton_append,
      List.isChain_split, ← hs]
    refine ⟨hold, ?_⟩
    rw [List.singleton_append, List.isChain_cons_cons, List.isChain_cons_cons]
    refine ⟨⟨?_, ?_⟩, ⟨hnext_e, hprev_head⟩, .singleton head⟩
    · rw [← hlast]
      exact hnext_last
    · rw [← hlast]
      exact hprev_e

/-- **Removing a node.** Its two neighbours are linked to each other. -/
theorem IsRing.erase (h : IsRing l head (ys ++ e :: zs))
    (hnext_prev : l'.next (l.prev e) = l.next e) (hprev_next : l'.prev (l.next e) = l.prev e)
    (hnext : ∀ a, a ≠ l.prev e → l'.next a = l.next a)
    (hprev : ∀ b, b ≠ l.next e → l'.prev b = l.prev b) : IsRing l' head (ys ++ zs) := by
  obtain ⟨ps, p, hp⟩ := exists_last head ys
  obtain ⟨s, qs, hq⟩ : ∃ s qs, zs ++ [head] = s :: qs := by
    cases zs with
    | nil => exact ⟨head, [], rfl⟩
    | cons z zs => exact ⟨z, zs ++ [head], rfl⟩
  have hchain := h.chain
  have hnodup := h.nodup
  rw [← List.cons_append, hp] at hnodup
  rw [← List.cons_append, hp, List.append_assoc, List.append_assoc, List.singleton_append,
    List.cons_append, hq, List.isChain_split, List.isChain_cons_cons, List.isChain_cons_cons] at hchain
  obtain ⟨hleft, hpe, hes, hright⟩ := hchain
  rw [hpe.2, hes.1] at hnext_prev hprev_next
  rw [hpe.2] at hnext
  rw [hes.1] at hprev
  have hmem : s ∈ zs ++ [head] := by rw [hq]; exact List.mem_cons_self
  -- `p` is the last node before `e`, and `s` is the node after it or the sentinel
  have hleft' : (ps ++ [p]).IsChain (Linked l') := by
    refine chain_congr hleft (fun a ha => hnext a ?_) (fun b hb => hprev b ?_)
    · rw [List.dropLast_concat] at ha
      rintro rfl
      exact List.disjoint_of_nodup_append (List.nodup_append.1 hnodup).1 ha List.mem_cons_self
    · rw [← hp, List.tail_cons] at hb
      rintro rfl
      rcases List.mem_append.1 hmem with hz | hz
      · have hb' : b ∈ ps ++ [p] := hp ▸ List.mem_cons_of_mem _ hb
        exact List.disjoint_of_nodup_append hnodup hb' (List.mem_cons_of_mem _ hz)
      · rw [List.mem_singleton] at hz
        exact h.ne_head (List.mem_append_left _ hb) hz
  have hright' : (s :: qs).IsChain (Linked l') := by
    refine chain_congr hright (fun a ha => hnext a ?_) (fun b hb => hprev b ?_)
    · rw [← hq, List.dropLast_concat] at ha
      rintro rfl
      have hp' : a ∈ ps ++ [a] := List.mem_append_right _ List.mem_cons_self
      exact List.disjoint_of_nodup_append hnodup hp' (List.mem_cons_of_mem _ ha)
    · rintro rfl
      cases zs with
      | nil =>
        cases hq
        simp at hb
      | cons z zs =>
        cases hq
        have hz : (b :: zs).Nodup := (List.nodup_cons.1 (List.nodup_append.1 hnodup).2.1).2
        rcases List.mem_append.1 hb with hb | hb
        · exact (List.nodup_cons.1 hz).1 hb
        · rw [List.mem_singleton] at hb
          exact h.ne_head (by simp) hb
  constructor
  · refine h.nodup.sublist ?_
    exact List.Sublist.cons_cons _ (List.Sublist.append_left (List.sublist_cons_self e zs) ys)
  · rw [← List.cons_append, hp, List.append_assoc, List.append_assoc, hq, List.singleton_append,
      List.isChain_split]
    exact ⟨hleft', List.isChain_cons_cons.2 ⟨⟨hnext_prev, hprev_next⟩, hright'⟩⟩

/-! ### Visiting a ring -/

section Iterate

variable {σ ρ : Type*}

/-- A loop over a list that its body may leave: the body `turn` continues with a new state or leaves
the loop with a result. -/
def foldUntil (turn : σ → α → σ ⊕ ρ) (done : σ → ρ) : σ → List α → ρ
  | s, [] => done s
  | s, x :: xs =>
    match turn s x with
    | .inl s' => foldUntil turn done s' xs
    | .inr r => r

/-- Looking for the first element with `p`. -/
theorem foldUntil_find (p : α → Bool) (d : α) :
    foldUntil (fun (_ : Unit) x => if p x then .inr x else .inl ()) (fun _ => d) () xs =
      (xs.find? p).getD d := by
  induction xs with
  | nil => rfl
  | cons x xs ih => by_cases hx : p x <;> simp [foldUntil, hx, ih]

/-- Asking whether there is one. -/
theorem foldUntil_any (p : α → Bool) :
    foldUntil (fun (_ : Unit) x => if p x then .inr true else .inl ()) (fun _ => false) () xs =
      xs.any p := by
  induction xs with
  | nil => rfl
  | cons x xs ih => by_cases hx : p x <;> simp [foldUntil, hx, ih]

/-- A body that never leaves the loop folds over the elements. -/
theorem foldUntil_foldl (f : σ → α → σ) (s : σ) :
    foldUntil (fun s x => Sum.inl (f s x)) (fun s => s) s xs = xs.foldl f s := by
  induction xs generalizing s with
  | nil => rfl
  | cons x xs ih => exact ih (f s x)

/-- A body that collects the elements. -/
theorem foldUntil_collect (done : List α → ρ) (visited xs : List α) :
    foldUntil (fun visited x => Sum.inl (visited ++ [x])) done visited xs = done (visited ++ xs) := by
  induction xs generalizing visited with
  | nil => rw [foldUntil, List.append_nil]
  | cons x xs ih =>
    have hrest := ih (visited ++ [x])
    rwa [List.append_assoc] at hrest

variable [DecidableEq α]

/-- One turn of the same loop over a ring: it steps from node to node until it is back at the
sentinel, and `turn` sees the node stepped to. -/
def iterate (l : Links α) (head : α) (turn : σ → α → σ ⊕ ρ) (done : σ → ρ) (s : σ × α) :
    (σ × α) ⊕ ρ :=
  if l.next s.2 = head then .inr (done s.1)
  else
    match turn s.1 (l.next s.2) with
    | .inl s' => .inl (s', l.next s.2)
    | .inr r => .inr r

/-- It depends on the forward pointers alone. -/
theorem iterate_congr (hnext : l'.next = l.next) (turn : σ → α → σ ⊕ ρ) (done : σ → ρ) :
    iterate l' head turn done = iterate l head turn done := by
  funext s
  unfold iterate
  rw [hnext]

theorem run_iterate_from {turn : σ → α → σ ⊕ ρ} {done : σ → ρ} {s : σ}
    (hchain : ((a :: xs) ++ [head]).IsChain fun a b => l.next a = b) (hhead : head ∉ xs) :
    WhileLoop.run (iterate l head turn done) (xs.length + 1) (s, a) =
      some (foldUntil turn done s xs) := by
  induction xs generalizing a s with
  | nil =>
    have hnext : l.next a = head := (List.isChain_cons_cons.1 hchain).1
    exact WhileLoop.run_succ_inr (by simp [iterate, hnext, foldUntil]) 0
  | cons x xs ih =>
    obtain ⟨hnext, hrest⟩ := List.isChain_cons_cons.1 hchain
    rw [List.mem_cons, not_or] at hhead
    cases hturn : turn s x with
    | inl s' =>
      have hbody : iterate l head turn done (s, a) = .inl (s', x) := by
        simp [iterate, hnext, Ne.symm hhead.1, hturn]
      rw [List.length_cons, WhileLoop.run_succ_inl hbody, ih hrest hhead.2]
      simp [foldUntil, hturn]
    | inr r =>
      have hbody : iterate l head turn done (s, a) = .inr r := by
        simp [iterate, hnext, Ne.symm hhead.1, hturn]
      rw [WhileLoop.run_succ_inr hbody]
      simp [foldUntil, hturn]

/-- **Visiting a ring from its sentinel is a fold over its elements, in order.** -/
theorem run_iterate (h : IsRing l head xs) (turn : σ → α → σ ⊕ ρ) (done : σ → ρ) (s : σ) :
    WhileLoop.run (iterate l head turn done) (xs.length + 1) (s, head) =
      some (foldUntil turn done s xs) :=
  run_iterate_from (h.chain.imp fun _ _ hl => hl.1) (List.nodup_cons.1 h.nodup).1

/-- One turn of a loop whose sentinel is itself an element: `turn` sees the node the loop is at, and
the loop ends when the next one is the sentinel. -/
def visit (l : Links α) (head : α) (turn : σ → α → σ ⊕ ρ) (done : σ → ρ) (s : σ × α) :
    (σ × α) ⊕ ρ :=
  match turn s.1 s.2 with
  | .inl s' => if l.next s.2 = head then .inr (done s') else .inl (s', l.next s.2)
  | .inr r => .inr r

theorem run_visit_from {turn : σ → α → σ ⊕ ρ} {done : σ → ρ} {s : σ}
    (hchain : ((a :: xs) ++ [head]).IsChain (Linked l)) (hhead : head ∉ xs) :
    WhileLoop.run (visit l head turn done) (xs.length + 1) (s, a) =
      some (foldUntil turn done s (a :: xs)) := by
  induction xs generalizing a s with
  | nil =>
    have hnext : l.next a = head := (List.isChain_cons_cons.1 hchain).1.1
    refine WhileLoop.run_succ_inr ?_ 0
    cases hturn : turn s a <;> simp [visit, hturn, hnext, foldUntil]
  | cons x xs ih =>
    obtain ⟨⟨hnext, -⟩, hrest⟩ := List.isChain_cons_cons.1 hchain
    rw [List.mem_cons, not_or] at hhead
    cases hturn : turn s a with
    | inl s' =>
      have hbody : visit l head turn done (s, a) = .inl (s', x) := by
        simp [visit, hturn, hnext, Ne.symm hhead.1]
      rw [List.length_cons, WhileLoop.run_succ_inl hbody, ih hrest hhead.2]
      simp [foldUntil, hturn]
    | inr r =>
      have hbody : visit l head turn done (s, a) = .inr r := by simp [visit, hturn]
      rw [WhileLoop.run_succ_inr hbody]
      simp [foldUntil, hturn]

/-- The same, where the sentinel is the first element. -/
theorem run_visit (h : IsRing l head xs) (turn : σ → α → σ ⊕ ρ) (done : σ → ρ) (s : σ) :
    WhileLoop.run (visit l head turn done) (xs.length + 1) (s, head) =
      some (foldUntil turn done s (head :: xs)) :=
  run_visit_from h.chain (List.nodup_cons.1 h.nodup).1

end Iterate

/-! ### Searching round a ring -/

/-- One turn of a loop that steps from node to node until one has `p`. -/
def seek (l : Links α) (p : α → Bool) (a : α) : α ⊕ α := if p a then .inr a else .inl (l.next a)

/-- A search along a chain ends at the first node with `p`. -/
theorem run_seek {p : α → Bool} (hchain : (a :: xs).IsChain (Linked l))
    (hfind : (a :: xs).find? p = some b) : WhileLoop.run (seek l p) (xs.length + 1) a = some b := by
  have hhere : ∀ a, p a = true → seek l p a = .inr a := fun a ha => if_pos ha
  induction xs generalizing a with
  | nil =>
    by_cases ha : p a = true
    · rw [List.find?_cons_of_pos ha, Option.some.injEq] at hfind
      subst hfind
      exact WhileLoop.run_succ_inr (hhere a ha) 0
    · rw [List.find?_cons_of_neg ha] at hfind
      cases hfind
  | cons x xs ih =>
    obtain ⟨⟨hnext, -⟩, hrest⟩ := List.isChain_cons_cons.1 hchain
    by_cases ha : p a = true
    · rw [List.find?_cons_of_pos ha, Option.some.injEq] at hfind
      subst hfind
      exact WhileLoop.run_succ_inr (hhere a ha) _
    · rw [List.find?_cons_of_neg ha] at hfind
      have hbody : seek l p a = .inl x := by rw [seek, if_neg ha, hnext]
      rw [List.length_cons, WhileLoop.run_succ_inl hbody]
      exact ih hrest hfind

/-- From every node the step forward leads to a node. -/
theorem IsRing.next_mem_cons (h : IsRing l head xs) (ha : a ∈ head :: xs) :
    l.next a ∈ head :: xs := by
  by_cases hlast : a = l.prev head
  · obtain ⟨ys, b, hs⟩ := exists_last head xs
    have hlinked := h.linked_last hs
    rw [hlast, hlinked.2, hlinked.1]
    exact List.mem_cons_self
  · exact List.mem_cons_of_mem _ (h.next_mem ha hlast)

/-- A search round a ring in which no node has `p` never ends. -/
theorem seek_diverges (h : IsRing l head xs) {p : α → Bool} (hp : ∀ x ∈ head :: xs, p x = false)
    (ha : a ∈ head :: xs) (fuel : ℕ) : WhileLoop.run (seek l p) fuel a = none := by
  refine WhileLoop.run_eq_none (I := fun a => a ∈ head :: xs) (fun b hb => ?_) ha fuel
  exact ⟨l.next b, if_neg (by simp [hp b hb]), h.next_mem_cons hb⟩

end LinkRing
