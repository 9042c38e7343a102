import Naul.List

/-!
# What an interrupt sees of a list

The interrupt handlers of `os/src/keyboard.c` and `os/src/mouse.c` walk the rings with `iterateList`
and take no lock, so that they may find a ring between two stores of `linkList` or `unlinkList`.
`linkStores` and `unlinkStores` are these stores one by one.

After the first store of `linkList` the ring leads to the new element, whose `next` has not been
stored yet: the handler follows whatever the memory held (`traverse_path`). After each of the others
it sees the old elements or the new ones.
-/

namespace Naul

open LinkRing

variable {α : Type*} [DecidableEq α]

/-- The stores of `linkList(list, element)`, in order. -/
def linkStores (list element : α) : List (Links α → Links α) :=
  [fun l => setNext l (l.prev list) element,
    fun l => setNext l element list,
    fun l => setPrev l element (l.prev list),
    fun l => setPrev l list element]

/-- The stores of `unlinkList(element)`, in order. -/
def unlinkStores (element : α) : List (Links α → Links α) :=
  [fun l => setNext l (l.prev element) (l.next element),
    fun l => setPrev l (l.next element) (l.prev element)]

/-- A change of a registry's ring. -/
inductive Edit (α : Type*)
  | link (element : α)
  | unlink (element : α)

namespace Edit

def stores (list : α) : Edit α → List (Links α → Links α)
  | link e => linkStores list e
  | unlink e => unlinkStores e

/-- The links after the first `n` stores. -/
def after (list : α) (n : ℕ) (l : Links α) (edit : Edit α) : Links α :=
  ((edit.stores list).take n).foldl (fun l store => store l) l

/-- A new element is in no ring, and one that is taken out is in this one. -/
def Proper (list : α) (xs : List α) : Edit α → Prop
  | link e => e ∉ list :: xs
  | unlink e => e ∈ xs

/-- The elements when all stores have been made. -/
def result (xs : List α) : Edit α → List α
  | link e => xs ++ [e]
  | unlink e => xs.erase e

end Edit

variable {l l' : Links α} {head e a g : α} {xs ys : List α}

theorem linkStores_foldl (l : Links α) (list element : α) :
    (linkStores list element).foldl (fun l store => store l) l = linkList l list element := rfl

theorem unlinkStores_foldl (l : Links α) (element : α) :
    (unlinkStores element).foldl (fun l store => store l) l = unlinkList l element := rfl

/-- A traversal that returns has visited every path from the sentinel that does not lead back to it. -/
theorem traverse_path {fuel : ℕ} {visited : List α}
    (hpath : (a :: xs).IsChain fun a b => l.next a = b) (hhead : head ∉ xs)
    (hrun : WhileLoop.run (iterate l head (fun visited x => .inl (visited ++ [x])) fun visited => visited)
      fuel (visited, a) = some ys) : visited ++ xs <+: ys := by
  induction fuel generalizing a xs visited with
  | zero => cases hrun
  | succ fuel ih =>
    by_cases hend : l.next a = head
    · cases xs with
      | nil =>
        rw [WhileLoop.run_succ_inr (r := visited) (by simp [iterate, hend]),
          Option.some.injEq] at hrun
        rw [List.append_nil, hrun]
      | cons x xs =>
        have hnext := (List.isChain_cons_cons.1 hpath).1
        exact absurd List.mem_cons_self (hend.symm.trans hnext ▸ hhead)
    · have hbody : iterate l head (fun visited x => .inl (visited ++ [x])) (fun visited => visited)
          (visited, a) = .inl (visited ++ [l.next a], l.next a) := by
        simp [iterate, hend]
      rw [WhileLoop.run_succ_inl hbody] at hrun
      cases xs with
      | nil =>
        have hvisited := ih (.singleton _) List.not_mem_nil hrun
        rw [List.append_nil] at hvisited ⊢
        exact (List.prefix_append _ _).trans hvisited
      | cons x xs =>
        obtain ⟨hnext, hrest⟩ := List.isChain_cons_cons.1 hpath
        rw [List.mem_cons, not_or] at hhead
        rw [hnext] at hrun
        have hvisited := ih hrest hhead.2 hrun
        rwa [List.append_assoc] at hvisited

/-- After the first store of `linkList` the ring leads past its elements to the new one, and on to
what the new element holds. -/
theorem link_path (h : IsRing l head xs) (he : e ∉ head :: xs) :
    (head :: (xs ++ [e, l.next e])).IsChain fun a b => ((Edit.link e).after head 1 l).next a = b := by
  have hfirst : ∀ a, ((Edit.link e).after head 1 l).next a = if a = l.prev head then e else l.next a :=
    fun a => setNext_next l (l.prev head) e a
  have hlast : e ≠ l.prev head := fun heq => he (heq ▸ h.prev_head_mem)
  have hring : (head :: (xs ++ [e])).IsChain (Linked (linkList l head e)) :=
    (List.isChain_append.1 (isRing_linkList h he).chain).1
  -- before the new element the pointers are already those of the ring to come
  have hold : (head :: (xs ++ [e])).IsChain
      (Linked ⟨((Edit.link e).after head 1 l).next, (linkList l head e).prev⟩) := by
    refine chain_congr hring (fun a ha => ?_) fun _ _ => rfl
    rw [← List.cons_append, List.dropLast_concat] at ha
    have hae : a ≠ e := fun heq => he (heq ▸ ha)
    simp [hfirst, linkList, hae]
  have hnext : ((Edit.link e).after head 1 l).next e = l.next e := by rw [hfirst, if_neg hlast]
  rw [← List.cons_append, List.isChain_split]
  exact ⟨hold.imp fun _ _ hl => hl.1, List.isChain_pair.2 hnext⟩

/-- A traversal returns with the elements before or with those after the change. -/
def SeesOldOrNew (l : Links α) (head : α) (xs : List α) (edit : Edit α) : Prop :=
  ∃ fuel ys, traverse fuel l head = some ys ∧ (ys = xs ∨ ys = edit.result xs)

theorem seesOld (h : IsRing l head xs) (hnext : l'.next = l.next) (edit : Edit α) :
    SeesOldOrNew l' head xs edit :=
  ⟨_, xs, (traverse_congr hnext _).trans (traverse_eq h), Or.inl rfl⟩

theorem seesNew {edit : Edit α} (h : IsRing l head (edit.result xs)) (hnext : l'.next = l.next) :
    SeesOldOrNew l' head xs edit :=
  ⟨_, _, (traverse_congr hnext _).trans (traverse_eq h), Or.inr rfl⟩

/-- After the first store of `linkList`. -/
theorem link_first_iff (h : IsRing l head xs) (he : e ∉ head :: xs) :
    SeesOldOrNew ((Edit.link e).after head 1 l) head xs (.link e) ↔ l.next e = head := by
  constructor
  · rintro ⟨fuel, ys, hrun, hys⟩
    by_contra hg
    have hhead : head ∉ xs ++ [e, l.next e] := by
      simp only [List.mem_append, List.mem_cons, List.not_mem_nil, or_false, not_or]
      refine ⟨(List.nodup_cons.1 h.nodup).1, ?_, fun heq => hg heq.symm⟩
      rintro rfl
      exact he List.mem_cons_self
    -- it has visited more than the new elements
    have hlength := (traverse_path (link_path h he) hhead hrun).length_le
    rcases hys with rfl | rfl <;> simp [Edit.result] at hlength
  · intro hg
    have hring : IsRing (linkList l head e) head ((Edit.link e).result xs) := isRing_linkList h he
    refine seesNew hring (funext fun a => ?_)
    have hfirst : ((Edit.link e).after head 1 l).next a = if a = l.prev head then e else l.next a :=
      setNext_next l (l.prev head) e a
    by_cases hae : a = e
    · subst hae
      have hlast : a ≠ l.prev head := fun heq => he (heq ▸ h.prev_head_mem)
      simp [hfirst, linkList, hlast, hg]
    · simp [hfirst, linkList, hae]

/-- At every other point of `linkList`. -/
theorem link_sees (h : IsRing l head xs) (he : e ∉ head :: xs) {n : ℕ} (hn : n ≠ 1) :
    SeesOldOrNew ((Edit.link e).after head n l) head xs (.link e) := by
  have hnew : IsRing (linkList l head e) head ((Edit.link e).result xs) := isRing_linkList h he
  match n with
  | 0 => exact seesOld h rfl _
  | 1 => exact absurd rfl hn
  | 2 => exact seesNew hnew rfl
  | 3 => exact seesNew hnew rfl
  | n + 4 =>
    have hall : (Edit.link e).after head (n + 4) l = linkList l head e := by
      rw [Edit.after, Edit.stores, List.take_of_length_le (by simp [linkStores]), linkStores_foldl]
    exact seesNew hnew (by rw [hall])

theorem unlink_sees (h : IsRing l head xs) (he : e ∈ xs) (n : ℕ) :
    SeesOldOrNew ((Edit.unlink e).after head n l) head xs (.unlink e) := by
  have hnew : IsRing (unlinkList l e) head ((Edit.unlink e).result xs) := isRing_unlinkList_erase h he
  match n with
  | 0 => exact seesOld h rfl _
  | 1 => exact seesNew hnew rfl
  | n + 2 =>
    have hall : (Edit.unlink e).after head (n + 2) l = unlinkList l e := by
      rw [Edit.after, Edit.stores, List.take_of_length_le (by simp [unlinkStores]), unlinkStores_foldl]
    exact seesNew hnew (by rw [hall])

/-- **What an interrupt sees.** At every point of a change of a well-formed ring, a traversal returns
with the old elements or with the new ones, unless the point is between the first two stores of
`linkList` and the memory of the new element does not happen to point to the sentinel. -/
theorem seesOldOrNew_iff (h : IsRing l head xs) {edit : Edit α} (hedit : edit.Proper head xs) (n : ℕ) :
    SeesOldOrNew (edit.after head n l) head xs edit ↔
      ∀ e, edit = .link e → n = 1 → l.next e = head := by
  cases edit with
  | link e =>
    by_cases hn : n = 1
    · subst hn
      rw [link_first_iff h hedit]
      exact ⟨fun hg e' heq _ => by cases heq; exact hg, fun hall => hall e rfl rfl⟩
    · exact iff_of_true (link_sees h hedit hn) fun _ _ heq => absurd heq hn
  | unlink e => exact iff_of_true (unlink_sees h hedit n) fun _ heq => by cases heq

/-- Two elements. A third one has been linked but for the last store; and the first one has been taken out
but for the last store. -/
theorem seesOldOrNew_twoElements :
    let l := linkList (linkList (emptyRing ℕ) 0 1) 0 2
    SeesOldOrNew ((Edit.link 3).after 0 3 l) 0 [1, 2] (.link 3) ∧
      SeesOldOrNew ((Edit.unlink 1).after 0 1 l) 0 [1, 2] (.unlink 1) := by
  have hone : IsRing (linkList (emptyRing ℕ) 0 1) 0 [1] := isRing_linkList (isRing_emptyRing 0) (by decide)
  have htwo : IsRing (linkList (linkList (emptyRing ℕ) 0 1) 0 2) 0 [1, 2] :=
    isRing_linkList hone (by decide)
  have hlink : (Edit.link 3).Proper 0 [1, 2] := show 3 ∉ [0, 1, 2] by decide
  have hunlink : (Edit.unlink 1).Proper 0 [1, 2] := show 1 ∈ [1, 2] by decide
  refine ⟨(seesOldOrNew_iff htwo hlink 3).2 fun e _ hn => ?_,
    (seesOldOrNew_iff htwo hunlink 1).2 fun e heq => ?_⟩
  · cases hn
  · cases heq

/-- Between the first two stores of `linkList` the handler steps from the new element to itself, and
never returns. -/
theorem first_store_traps :
    IsRing (emptyRing ℕ) 0 [] ∧ (Edit.link 1).Proper 0 [] ∧
      ∀ fuel, traverse fuel ((Edit.link 1).after 0 1 (emptyRing ℕ)) 0 = none := by
  refine ⟨(isRing_emptyRing 0), by simp [Edit.Proper], fun fuel => ?_⟩
  refine WhileLoop.run_eq_none (I := fun _ => True) (fun s _ => ?_) trivial fuel
  have hnext : ((Edit.link 1).after 0 1 (emptyRing ℕ)).next s.2 ≠ 0 := by
    show Function.update (emptyRing ℕ).next 0 1 s.2 ≠ 0
    by_cases hs : s.2 = 0
    · rw [hs, Function.update_self]
      decide
    · rwa [Function.update_of_ne hs]
  exact ⟨_, if_neg hnext, trivial⟩

end Naul
