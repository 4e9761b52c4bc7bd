import Mathlib.Algebra.BigOperators.Group.Finset.Basic
import Mathlib.Algebra.Order.BigOperators.Group.Finset
import Mathlib.Algebra.BigOperators.Fin
import Mathlib.Tactic.Abel

/-! # Sums over parties

What all parties together hold, as a number or as a multiset. One party moves at a time, and
the sum changes by what that party gained and lost.
-/
namespace Interaction
variable {ι α M : Type} [Fintype ι]

/-- What the parties hold together. -/
def tally [AddCommMonoid M] (g : α → M) (parties : ι → α) : M := ∑ i, g (parties i)

theorem tally_update [DecidableEq ι] [AddCommMonoid M] (g : α → M) (parties : ι → α) (i : ι) (a : α) :
    tally g (Function.update parties i a) + g (parties i) = tally g parties + g a := by
  have hcomp : (fun j => g (Function.update parties i a j)) = Function.update (fun j => g (parties j)) i (g a) := by
    funext j
    exact Function.apply_update (fun _ => g) parties i a j
  have hrest := Finset.sum_update_of_mem (Finset.mem_univ i) (fun j => g (parties j)) (g (parties i))
  rw [Function.update_eq_self] at hrest
  unfold tally
  rw [hcomp, Finset.sum_update_of_mem (Finset.mem_univ i), hrest]
  abel

section Cancel
variable [DecidableEq ι] [AddCancelCommMonoid M] {g : α → M} {p : ι → α} {i : ι} {a : α} {x : M}

theorem tally_keep (h : g a = g (p i)) : tally g (Function.update p i a) = tally g p := by
  have hsum := tally_update g p i a
  rw [h] at hsum
  exact add_right_cancel hsum

theorem tally_gain (h : g a = g (p i) + x) : tally g (Function.update p i a) = tally g p + x := by
  have hsum := tally_update g p i a
  rw [h, add_comm (g (p i)), ← add_assoc] at hsum
  exact add_right_cancel hsum

theorem tally_lose (h : g (p i) = g a + x) : tally g (Function.update p i a) + x = tally g p := by
  have hsum := tally_update g p i a
  rw [h, add_comm (g a), ← add_assoc] at hsum
  exact add_right_cancel hsum

end Cancel

theorem tally_eq_zero {g : α → ℕ} {parties : ι → α} : tally g parties = 0 ↔ ∀ i, g (parties i) = 0 := by
  simp [tally]

theorem le_tally {g : α → ℕ} (parties : ι → α) (i : ι) : g (parties i) ≤ tally g parties :=
  Finset.single_le_sum (f := fun j => g (parties j)) (fun _ _ => Nat.zero_le _) (Finset.mem_univ i)

theorem tally_le {g : α → ℕ} {parties : ι → α} {b : ℕ} (h : ∀ i, g (parties i) ≤ b) :
    tally g parties ≤ Fintype.card ι * b := by
  have hsum := Finset.sum_le_card_nsmul Finset.univ (fun i => g (parties i)) b (fun i _ => h i)
  rw [smul_eq_mul] at hsum
  exact hsum

end Interaction
