import Mathlib.Algebra.BigOperators.Field
import Mathlib.Algebra.Order.BigOperators.Group.Finset
import Mathlib.Analysis.Real.Sqrt

/-!
# The cosine of two vectors

Vectors are real functions on any type, and a finite set says which components count. `cosine` is the
cosine of two vectors over such a set. It does not change when a vector is multiplied by a positive
number (`cosine_scale`).

When one vector is zero outside a smaller set, the cosine over that set is not the cosine over the
larger one: it is the larger one's, divided by the share of the other vector that the smaller set has
(`cosine_div_share`). With a single component nothing is left of the other vector
(`cosine_singleton`).
-/

set_option autoImplicit false

universe u

namespace Cosine

open Finset

variable {ι : Type u}

/-- The inner product over a set of components. -/
def dot (s : Finset ι) (x y : ι → ℝ) : ℝ := ∑ i ∈ s, x i * y i

/-- The length of a vector over a set of components. -/
noncomputable def length (s : Finset ι) (x : ι → ℝ) : ℝ := √(dot s x x)

/-- The cosine of two vectors over a set of components. -/
noncomputable def cosine (s : Finset ι) (x y : ι → ℝ) : ℝ :=
  dot s x y / (length s x * length s y)

/-- How much of the length of a vector over `s` its components in `t` have. -/
noncomputable def share (t s : Finset ι) (x : ι → ℝ) : ℝ := length t x / length s x

theorem dot_self_nonneg (s : Finset ι) (x : ι → ℝ) : 0 ≤ dot s x x :=
  sum_nonneg fun i _ => mul_self_nonneg (x i)

theorem length_nonneg (s : Finset ι) (x : ι → ℝ) : 0 ≤ length s x := Real.sqrt_nonneg _

/-- A vector has a length when one of its components is not zero. -/
theorem length_ne_zero {s : Finset ι} {x : ι → ℝ} : length s x ≠ 0 ↔ ∃ i ∈ s, x i ≠ 0 := by
  unfold length
  rw [ne_eq, Real.sqrt_eq_zero (dot_self_nonneg s x)]
  unfold dot
  rw [sum_eq_zero_iff_of_nonneg fun i _ => mul_self_nonneg (x i)]
  simp

theorem dot_div (s : Finset ι) (x y : ι → ℝ) (a b : ℝ) :
    dot s (fun i => x i / a) (fun i => y i / b) = dot s x y / (a * b) := by
  unfold dot
  rw [sum_div]
  exact sum_congr rfl fun i _ => div_mul_div_comm (x i) a (y i) b

theorem length_div (s : Finset ι) (x : ι → ℝ) {a : ℝ} (ha : 0 ≤ a) :
    length s (fun i => x i / a) = length s x / a := by
  unfold length
  rw [dot_div, Real.sqrt_div (dot_self_nonneg s x), Real.sqrt_mul_self ha]

/-- The cosine does not see the lengths of its vectors. -/
theorem cosine_scale (s : Finset ι) (x y : ι → ℝ) {a b : ℝ} (ha : 0 < a) (hb : 0 < b) :
    cosine s (fun i => x i / a) (fun i => y i / b) = cosine s x y := by
  unfold cosine
  rw [dot_div, length_div s x ha.le, length_div s y hb.le, div_mul_div_comm,
    div_div_div_cancel_right₀ (mul_pos ha hb).ne']

/-- Components where one vector is zero do not count in the inner product. -/
theorem dot_of_subset {t s : Finset ι} (hts : t ⊆ s) {x : ι → ℝ} (hx : ∀ i ∈ s, i ∉ t → x i = 0)
    (y : ι → ℝ) : dot s x y = dot t x y := by
  unfold dot
  refine (sum_subset hts fun i hs ht => ?_).symm
  rw [hx i hs ht, zero_mul]

/-- A part of a vector is not longer than the vector. -/
theorem length_mono {t s : Finset ι} (hts : t ⊆ s) (x : ι → ℝ) : length t x ≤ length s x := by
  apply Real.sqrt_le_sqrt
  exact sum_le_sum_of_subset_of_nonneg hts fun i _ _ => mul_self_nonneg (x i)

/-- A part that misses a component is shorter. -/
theorem length_lt {t s : Finset ι} (hts : t ⊆ s) {x : ι → ℝ} {i : ι} (hs : i ∈ s) (ht : i ∉ t)
    (hi : x i ≠ 0) : length t x < length s x := by
  apply Real.sqrt_lt_sqrt (dot_self_nonneg t x)
  exact sum_lt_sum_of_subset hts hs ht (mul_self_pos.mpr hi) fun j _ _ => mul_self_nonneg (x j)

theorem length_singleton (i : ι) (x : ι → ℝ) : length {i} x = |x i| := by
  unfold length dot
  rw [sum_singleton, Real.sqrt_mul_self_eq_abs]

/-- **The cosine over a smaller set**: the cosine over the larger one without the share of the second
vector that the smaller set has. -/
theorem cosine_div_share {t s : Finset ι} (hts : t ⊆ s) {x : ι → ℝ}
    (hx : ∀ i ∈ s, i ∉ t → x i = 0) {y : ι → ℝ} (hy : length t y ≠ 0) :
    cosine s x y / share t s y = cosine t x y := by
  have hpos : 0 < length t y := lt_of_le_of_ne (length_nonneg t y) hy.symm
  have hlarge : length s y ≠ 0 := (hpos.trans_le (length_mono hts y)).ne'
  have hlength : length s x = length t x := by
    unfold length
    rw [dot_of_subset hts hx]
  unfold cosine share
  rw [dot_of_subset hts hx, hlength]
  by_cases hzero : length t x = 0
  · rw [hzero, zero_mul, zero_mul, div_zero, zero_div]
  · field_simp

/-- Over one component, vectors that are positive there have the cosine one. -/
theorem cosine_singleton {i : ι} {x y : ι → ℝ} (hx : 0 < x i) (hy : 0 < y i) :
    cosine {i} x y = 1 := by
  unfold cosine length dot
  rw [sum_singleton, sum_singleton, sum_singleton, Real.sqrt_mul_self hx.le,
    Real.sqrt_mul_self hy.le]
  exact div_self (mul_pos hx hy).ne'

end Cosine
