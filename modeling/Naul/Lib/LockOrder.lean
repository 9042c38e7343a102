import Mathlib.Order.WellFounded
import Mathlib.Order.RelClasses
import Mathlib.Tactic

/-!
# Locks in an order

Locks have ranks, and a thread in the section of a lock goes to locks of higher rank only. `Left s m n`
says that in the state `s` the lock `m` is taken and its holder has at most `n` steps to take before it
frees it. `reach m s s'` is what holders of locks of at least the rank of `m` can do.

Where each holder can take one of its steps, or stands at a lock of higher rank that is taken and can
take one as soon as that one is free, every lock can be freed (`exists_free`): the holders of the locks
of highest rank stand at none.
-/

namespace LockOrder

variable {σ L α : Type*} [Preorder α] [WellFoundedGT α] {I : σ → Prop} {taken : σ → L → Prop}
  {reach : L → σ → σ → Prop}

/-- The holder has freed the lock, or has fewer than `n` steps to take. -/
def Closer (taken : σ → L → Prop) (Left : σ → L → ℕ → Prop) (m : L) (n : ℕ) (s : σ) : Prop :=
  ¬ taken s m ∨ ∃ n' < n, Left s m n'

/-- **Every lock can be freed.** -/
theorem exists_free (rank : L → α) (Left : σ → L → ℕ → Prop) (hrefl : ∀ m s, reach m s s)
    (htrans : ∀ m s t u, reach m s t → reach m t u → reach m s u)
    (hmono : ∀ m m' s t, rank m ≤ rank m' → reach m' s t → reach m s t)
    (hleft : ∀ s m, I s → taken s m → ∃ n, Left s m n)
    (hstep : ∀ s m n, I s → Left s m n →
      (∃ t, reach m s t ∧ I t ∧ Closer taken Left m n t) ∨
        ∃ m', rank m < rank m' ∧ ∀ t, reach m' s t → I t → ¬ taken t m' →
          ∃ u, reach m t u ∧ I u ∧ Closer taken Left m n u)
    {s : σ} (m : L) (hs : I s) : ∃ t, reach m s t ∧ I t ∧ ¬ taken t m := by
  have hwf : WellFounded fun m m' : L => rank m' < rank m := InvImage.wf rank wellFounded_gt
  induction m using hwf.induction generalizing s with
  | _ m ih =>
    by_cases hm : taken s m
    · obtain ⟨n, hn⟩ := hleft s m hs hm
      clear hm
      induction n using Nat.strong_induction_on generalizing s with
      | _ n ihn =>
        -- from a state that is closer, by the number of steps
        have hcloser : ∀ t u, reach m s t → reach m t u → I u → Closer taken Left m n u →
            ∃ v, reach m s v ∧ I v ∧ ¬ taken v m := by
          intro t u hst htu hu hclose
          have hsu := htrans m s t u hst htu
          rcases hclose with hfree | ⟨n', hlt, hn'⟩
          · exact ⟨u, hsu, hu, hfree⟩
          · obtain ⟨v, huv, hv, hfree⟩ := ihn n' hlt hu hn'
            exact ⟨v, htrans m s u v hsu huv, hv, hfree⟩
        rcases hstep s m n hs hn with ⟨t, hst, ht, hclose⟩ | ⟨m', hlt, hnext⟩
        · exact hcloser s t (hrefl m s) hst ht hclose
        · obtain ⟨t, hst, ht, hfree⟩ := ih m' hlt hs
          obtain ⟨u, htu, hu, hclose⟩ := hnext t hst ht hfree
          exact hcloser t u (hmono m m' s t hlt.le hst) htu hu hclose
    · exact ⟨s, hrefl m s, hs, hm⟩

end LockOrder
