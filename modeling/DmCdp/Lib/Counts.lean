import Mathlib.Algebra.BigOperators.Group.Finset.Basic
import Mathlib.Algebra.Order.BigOperators.Group.Finset
import Mathlib.Algebra.BigOperators.Intervals

/-!
# Totals over an index range, and set bits

* `sum_bump`, `sum_stay`  a total when one term grows, or none;
* `ones p n`       how many indices below `n` have `p`; `ones_add`, `ones_le`, `ones_mono`.
-/

set_option linter.unusedVariables false

namespace Counts
open Finset

/-! ## totals -/

theorem sum_stay {f g : Nat → Nat} {n : Nat} (h : ∀ j, j < n → g j = f j) :
    ∑ j ∈ range n, g j = ∑ j ∈ range n, f j := by
  apply sum_congr rfl
  intro j hj
  exact h j (mem_range.mp hj)

theorem sum_bump {f g : Nat → Nat} {n k c : Nat} (hk : k < n) (h : g k = f k + c)
    (ho : ∀ j, j ≠ k → g j = f j) : ∑ j ∈ range n, g j = ∑ j ∈ range n, f j + c := by
  induction n with
  | zero => exact absurd hk (Nat.not_lt_zero k)
  | succ n ih =>
    rw [sum_range_succ, sum_range_succ]
    by_cases hkn : k = n
    · subst hkn
      rw [h, sum_stay fun j hj => ho j (Nat.ne_of_lt hj)]
      omega
    · rw [ih (by omega), ho n (Ne.symm hkn)]
      omega

theorem sum_split (f : Nat → Nat) {m n : Nat} (h : m ≤ n) :
    ∑ j ∈ range n, f j = ∑ j ∈ range m, f j + ∑ j ∈ range (n - m), f (m + j) := by
  obtain ⟨d, rfl⟩ := Nat.exists_eq_add_of_le h
  rw [sum_range_add, Nat.add_sub_cancel_left]

/-! ## set bits -/

/-- how many `i < n` have `p` -/
def ones (p : Nat → Bool) (n : Nat) : Nat := (List.range n).countP p

theorem ones_le (p : Nat → Bool) (n : Nat) : ones p n ≤ n := by
  have h := List.countP_le_length (p:=p) (l:=List.range n)
  rwa [List.length_range] at h

theorem ones_add (p : Nat → Bool) (m n : Nat) :
    ones p (m + n) = ones p m + ones (fun i => p (m + i)) n := by
  unfold ones
  rw [List.range_add, List.countP_append, List.countP_map]
  rfl

theorem ones_mono {p q : Nat → Bool} {n : Nat} (h : ∀ i, i < n → p i = true → q i = true) :
    ones p n ≤ ones q n := by
  apply List.countP_mono_left
  intro i hi
  exact h i (List.mem_range.mp hi)

end Counts
