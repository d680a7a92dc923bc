import Mathlib.Algebra.BigOperators.Group.Finset.Piecewise
import Mathlib.Algebra.Order.BigOperators.Group.Finset

/-! Totals over a finite family of components. One component changes at a time,
so the only facts needed are what an update does and how totals compare. -/
namespace TinyMiddleware.Family

open scoped BigOperators

variable {ι α : Type*} [Fintype ι]

def total (weight : α → Nat) (family : ι → α) : Nat :=
  ∑ i, weight (family i)

def count (p : α → Bool) (family : ι → α) : Nat :=
  total (fun a => if p a then 1 else 0) family

/-- Stated without subtraction, so that `omega` can use it either way. -/
theorem total_update [DecidableEq ι] (weight : α → Nat) (family : ι → α) (i : ι) (a : α) :
    total weight (Function.update family i a) + weight (family i) =
      total weight family + weight a := by
  unfold total
  rw [← Finset.add_sum_erase Finset.univ (fun j => weight (family j)) (Finset.mem_univ i),
    ← Finset.add_sum_erase Finset.univ
      (fun j => weight (Function.update family i a j)) (Finset.mem_univ i)]
  have hrest : ∑ j ∈ Finset.univ.erase i, weight (Function.update family i a j) =
      ∑ j ∈ Finset.univ.erase i, weight (family j) := by
    apply Finset.sum_congr rfl
    intro j hj
    rw [Function.update_of_ne (Finset.ne_of_mem_erase hj)]
  simp only [hrest, Function.update_self]
  omega

theorem total_mono {v w : α → Nat} {f g : ι → α} (h : ∀ i, v (f i) ≤ w (g i)) :
    total v f ≤ total w g :=
  Finset.sum_le_sum fun i _ => h i

theorem count_update [DecidableEq ι] (p : α → Bool) (family : ι → α) (i : ι) (a : α) :
    count p (Function.update family i a) + (if p (family i) then 1 else 0) =
      count p family + (if p a then 1 else 0) :=
  total_update _ family i a

theorem count_eq_zero {p : α → Bool} {family : ι → α} (h : ∀ i, p (family i) = false) :
    count p family = 0 := by
  simp [count, total, h]

end TinyMiddleware.Family
