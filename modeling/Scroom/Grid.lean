import Mathlib.Algebra.BigOperators.Intervals
import Mathlib.Tactic

/-! Pictures on a grid, cut into square blocks: the sums and the means over the blocks, and what becomes of the
means when they are rounded again and again. -/
namespace Scroom
namespace Grid

variable {M : Type*} [AddCommMonoid M] {n m : ℕ}

/-- The sum over the block of `n` by `n` for row `y` and column `x`. -/
def blockSum (n : ℕ) (f : ℕ → ℕ → M) (y x : ℕ) : M :=
  ∑ a ∈ Finset.range n, ∑ b ∈ Finset.range n, f (n*y+a) (n*x+b)

theorem blockSum_le {f g : ℕ → ℕ → ℚ} (h : ∀ y x, f y x ≤ g y x) (n y x : ℕ) : blockSum n f y x ≤ blockSum n g y x :=
  Finset.sum_le_sum fun _ _ => Finset.sum_le_sum fun _ _ => h _ _

theorem blockSum_lt {f g : ℕ → ℕ → ℚ} (hn : 0 < n) (h : ∀ y x, f y x < g y x) (y x : ℕ) :
    blockSum n f y x < blockSum n g y x := by
  have hne : (Finset.range n).Nonempty := Finset.nonempty_range_iff.mpr hn.ne'
  exact Finset.sum_lt_sum_of_nonempty hne fun _ _ => Finset.sum_lt_sum_of_nonempty hne fun _ _ => h _ _

/-- The mean over a block. -/
def mean (n : ℕ) (f : ℕ → ℕ → ℚ) (y x : ℕ) : ℚ := blockSum n f y x/(n*n)

theorem mean_lt {f g : ℕ → ℕ → ℚ} (hn : 0 < n) (h : ∀ y x, f y x < g y x) (y x : ℕ) :
    mean n f y x < mean n g y x :=
  div_lt_div_of_pos_right (blockSum_lt hn h y x) (by positivity)

end Grid
end Scroom
