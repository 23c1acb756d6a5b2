import Mathlib.Tactic

/-! Integers of 32 bits, the conversion of fractions to them, and division that rounds up.
A computation whose exact value does not fit gives `none`. -/
namespace Scroom
namespace MachineInt

def intMin : ℤ := -2147483648
def intMax : ℤ := 2147483647

/-- The value, if an `int` can hold it. -/
def checked (n : ℤ) : Option ℤ := if intMin ≤ n ∧ n ≤ intMax then some n else none

theorem checked_eq_some {n m : ℤ} : checked n = some m ↔ (intMin ≤ n ∧ n ≤ intMax) ∧ n = m := by
  simp [checked]

/-- Conversion from a wider or an unsigned type: the value modulo `2^32`. -/
def wrap (n : ℤ) : ℤ := n.bmod (2^32)

theorem wrap_of_mem {n : ℤ} (hl : intMin ≤ n) (hr : n ≤ intMax) : wrap n = n := by
  simp only [wrap,Int.bmod_def,intMin,intMax] at *
  split <;> omega

theorem wrap_of_large {n : ℤ} (hl : intMax < n) (hr : n < 2^32) : wrap n = n-2^32 := by
  simp only [wrap,Int.bmod_def,intMax] at *
  split <;> omega

/-- Rounding towards zero. -/
def trunc (q : ℚ) : ℤ := if 0 ≤ q then ⌊q⌋ else ⌈q⌉

theorem trunc_of_nonneg {q : ℚ} (h : 0 ≤ q) : trunc q = ⌊q⌋ := if_pos h

theorem trunc_intCast (n : ℤ) : trunc n = n := by
  rw [trunc]
  split
  · exact Int.floor_intCast n
  · exact Int.ceil_intCast n

theorem trunc_nonpos {q : ℚ} (h : q ≤ 0) : trunc q ≤ 0 := by
  unfold trunc
  split
  · exact Int.floor_le_iff.mpr (by push_cast; linarith)
  · exact Int.ceil_le.mpr (by simpa using h)

/-- Conversion of a fraction to an `int`, undefined when the truncated value does not fit. -/
def toInt (q : ℚ) : Option ℤ := checked (trunc q)

theorem toInt_isSome_iff {q : ℚ} : (toInt q).isSome ↔ -2^31-1 < q ∧ q < 2^31 := by
  have hchecked : (toInt q).isSome ↔ intMin ≤ trunc q ∧ trunc q ≤ intMax := by
    rw [toInt,checked]
    split <;> simp [*]
  rw [hchecked,intMin,intMax]
  by_cases h : 0 ≤ q
  · rw [trunc,if_pos h,Int.le_floor,← Int.lt_add_one_iff,Int.floor_lt]
    norm_num
    exact fun _ => ⟨fun _ => by linarith,fun _ => by linarith⟩
  · rw [trunc,if_neg h,Int.ceil_le,← Int.sub_one_lt_iff,Int.lt_ceil]
    norm_num
    exact fun _ => ⟨fun _ => by linarith,fun _ => by linarith⟩

theorem tdiv_eq_ceil {n d : ℤ} (hn : 0 ≤ n) (hd : 0 < d) :
    (n+(d-1)).tdiv d = ⌈(n:ℚ)/d⌉ := by
  rw [Int.tdiv_eq_ediv_of_nonneg (by omega)]
  have hq : (0:ℚ) < d := by exact_mod_cast hd
  refine (Int.ceil_eq_iff.mpr ⟨?_,?_⟩).symm
  · rw [lt_div_iff₀ hq]
    have h : ((n+(d-1))/d-1)*d < n := by nlinarith [Int.ediv_mul_le (n+(d-1)) (by omega : d ≠ 0)]
    exact_mod_cast h
  · rw [div_le_iff₀ hq]
    have h : n ≤ (n+(d-1))/d*d := by
      have hh := Int.lt_ediv_add_one_mul_self (n+(d-1)) hd
      nlinarith
    exact_mod_cast h

theorem tdiv_nonpos {n d : ℤ} (hn : n ≤ 0) (hd : 0 ≤ d) : n.tdiv d ≤ 0 := by
  have h : 0 ≤ (-n).tdiv d := Int.tdiv_nonneg (by omega) hd
  rw [Int.neg_tdiv] at h
  omega

theorem tdiv_le (n : ℤ) {d : ℤ} (hd : 0 < d) : n.tdiv d ≤ max (n/d) 0 := by
  rcases le_total 0 n with hn | hn
  · exact (Int.tdiv_eq_ediv_of_nonneg hn).le.trans (le_max_left _ _)
  · exact (tdiv_nonpos hn hd.le).trans (le_max_right _ _)

theorem lt_ceil_div_iff {n d c : ℤ} (hd : 0 < d) : c < ⌈(n:ℚ)/d⌉ ↔ c*d < n := by
  have hq : (0:ℚ) < d := by exact_mod_cast hd
  rw [Int.lt_ceil,lt_div_iff₀ hq]
  exact_mod_cast Iff.rfl

/-- The same for the truncating division, where a dividend may be negative. -/
theorem lt_tdiv_iff {n d : ℤ} {c : ℕ} (hd : 0 < d) : (c:ℤ) < (n+(d-1)).tdiv d ↔ c*d < n := by
  rcases le_or_gt n 0 with hn | hn
  · have h := tdiv_le (n+(d-1)) hd
    have hq : (n+(d-1))/d ≤ 0 := Int.lt_add_one_iff.mp (Int.ediv_lt_of_lt_mul hd (by omega))
    have hc : 0 ≤ (c:ℤ)*d := by positivity
    omega
  · rw [tdiv_eq_ceil hn.le hd,lt_ceil_div_iff hd]

theorem ceil_ceil_div {n a b : ℤ} (ha : 0 < a) (hb : 0 < b) :
    ⌈(⌈(n:ℚ)/a⌉:ℚ)/b⌉ = ⌈(n:ℚ)/((a*b : ℤ) : ℚ)⌉ := by
  refine eq_of_forall_lt_iff fun c => ?_
  rw [lt_ceil_div_iff hb,lt_ceil_div_iff ha,lt_ceil_div_iff (mul_pos ha hb),mul_assoc,mul_comm b a]

theorem ceil_div_nonneg {n d : ℤ} (hn : 0 ≤ n) (hd : 0 < d) : 0 ≤ ⌈(n:ℚ)/d⌉ := by
  have hq : (0:ℚ) ≤ n := by exact_mod_cast hn
  have hq' : (0:ℚ) < d := by exact_mod_cast hd
  positivity

end MachineInt
end Scroom
