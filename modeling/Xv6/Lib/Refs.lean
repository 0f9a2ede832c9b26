import Mathlib.Algebra.BigOperators.Group.Finset.Basic
import Mathlib.Algebra.BigOperators.Group.Finset.Piecewise
import Mathlib.Algebra.Order.BigOperators.Group.Finset
import Mathlib.Algebra.Order.Group.Int
import Mathlib.Data.Fintype.BigOperators

/- Reference counts. Finitely many holders each have a claim to every object, and a
   count is right when it is the sum of the claims (`Balanced`). A step that changes the
   claims of one holder keeps this when it changes the counts by as much
   (`Balanced.shift`). Where no claim is negative, a count is at least what any two holders
   claim. -/
namespace Xv6.Lib.Refs

variable {π κ β : Type} [Fintype π]

/-- The sum over all places, after one of them got another content. -/
theorem sum_update [DecidableEq π] (g : β → ℤ) (m : π → β) (p : π) (b : β) :
    ∑ q, g (Function.update m p b q) = ∑ q, g (m q) - g (m p) + g b := by
  have hrest : ∑ q ∈ Finset.univ.erase p, g (Function.update m p b q) =
      ∑ q ∈ Finset.univ.erase p, g (m q) := by
    apply Finset.sum_congr rfl
    intro q hq
    rw [Function.update_of_ne (Finset.ne_of_mem_erase hq)]
  rw [← Finset.add_sum_erase _ _ (Finset.mem_univ p), hrest,
    ← Finset.add_sum_erase Finset.univ (fun q => g (m q)) (Finset.mem_univ p), Function.update_self]
  omega

/-- Every count is the sum of the claims. -/
def Balanced (count : κ → ℤ) (claim : π → κ → ℤ) : Prop := ∀ x, count x = ∑ p, claim p x

variable {count count' : κ → ℤ} {claim claim' : π → κ → ℤ} {x : κ}

/-- The claims of the holders in `S` and the counts change by the same. -/
theorem Balanced.shiftOn [DecidableEq π] (h : Balanced count claim) (S : Finset π)
    (hother : ∀ q, q ∉ S → claim' q = claim q)
    (hcount : ∀ x, count' x - count x = ∑ q ∈ S, (claim' q x - claim q x)) : Balanced count' claim' := by
  intro x
  have hsum : ∑ q ∈ S, (claim' q x - claim q x) = ∑ q, (claim' q x - claim q x) := by
    apply Finset.sum_subset (Finset.subset_univ S)
    intro q _ hq
    rw [hother q hq, sub_self]
  have hx := h x
  have hc := hcount x
  rw [hsum, Finset.sum_sub_distrib] at hc
  omega

/-- The claims of `p` and the counts change by the same. -/
theorem Balanced.shift [DecidableEq π] (h : Balanced count claim) (p : π)
    (hother : ∀ q, q ≠ p → claim' q = claim q)
    (hcount : ∀ x, count' x - count x = claim' p x - claim p x) : Balanced count' claim' := by
  apply h.shiftOn {p}
  · intro q hq
    exact hother q (fun he => hq (Finset.mem_singleton.mpr he))
  · intro x
    rw [Finset.sum_singleton]
    exact hcount x

/-- The claims of two holders change. -/
theorem Balanced.pass [DecidableEq π] (h : Balanced count claim) {p q : π} (hpq : p ≠ q)
    (hother : ∀ r, r ≠ p → r ≠ q → claim' r = claim r)
    (hcount : ∀ x, count' x - count x = claim' p x - claim p x + (claim' q x - claim q x)) :
    Balanced count' claim' := by
  apply h.shiftOn {p, q}
  · intro r hr
    have hr := fun he => hr (Finset.mem_insert.mpr he)
    exact hother r (fun he => hr (.inl he)) (fun he => hr (.inr (Finset.mem_singleton.mpr he)))
  · intro x
    rw [Finset.sum_pair hpq]
    exact hcount x

theorem Balanced.congr (h : Balanced count claim) (hcount : ∀ x, count' x = count x)
    (hclaim : ∀ p, claim' p = claim p) : Balanced count' claim' := by
  intro x
  rw [hcount, h x]
  exact Finset.sum_congr rfl (fun p _ => congrFun (hclaim p).symm x)

section Nonneg

variable (hpos : ∀ p, 0 ≤ claim p x)

include hpos

theorem Balanced.claim_le (h : Balanced count claim) (p : π) : claim p x ≤ count x := by
  rw [h x]
  exact Finset.single_le_sum (fun q _ => hpos q) (Finset.mem_univ p)

theorem Balanced.claims_le [DecidableEq π] (h : Balanced count claim) {p q : π} (hpq : p ≠ q) :
    claim p x + claim q x ≤ count x := by
  rw [h x, ← Finset.add_sum_erase _ _ (Finset.mem_univ p)]
  have hq : q ∈ Finset.univ.erase p := Finset.mem_erase.mpr ⟨hpq.symm, Finset.mem_univ q⟩
  have := Finset.single_le_sum (f := fun r => claim r x) (fun r _ => hpos r) hq
  omega

end Nonneg

end Xv6.Lib.Refs
