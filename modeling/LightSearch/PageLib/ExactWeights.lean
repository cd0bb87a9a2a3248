import Mathlib.Analysis.SpecialFunctions.Log.Base
import LightSearch.PageLib.InvertLib

/-!
# Weights without rounding

The arithmetic of the weights over the reals, where an operation that has no real result has none here,
as it has no number in `double` (a division by zero, the logarithm of zero). A weight comes into the table
as it is: the rounding of `to_string` to six decimals is idealised like that of the operations, and
`printReal` only tells a number from `nan`. What the index relies on holds of it (`weighs_exactReals`).
-/

set_option autoImplicit false

namespace LightSearch

open Cxx

/-- The real numbers; `none` is no number. Printing loses nothing here. -/
noncomputable def exactReals : Arith (Option ℝ) where
  ofNat n := some n
  add x y := do .some ((← x) + (← y))
  mul x y := do .some ((← x) * (← y))
  div x y := do
    let x ← x
    let y ← y
    if y = 0 then none else some (x / y)
  log2 x := do
    let x ← x
    if 0 < x then some (Real.logb 2 x) else none
  sqrt x := do
    let x ← x
    if 0 ≤ x then some √x else none
  printed x := x

/-- `to_string`: six decimals. -/
noncomputable def printReal : Option ℝ → Str
  | none => lit "nan"
  | some x =>
    let digits := decimal ⌊|x| * 10 ^ 6⌋₊
    let padded := List.replicate (7 - digits.length) 48 ++ digits
    (if x < 0 then lit "-" else []) ++ padded.take (padded.length - 6) ++
      lit "." ++ padded.drop (padded.length - 6)

theorem not_numeral_none : ¬ Numeral (printReal none) := by
  unfold printReal
  decide

theorem numeral_some (x : ℝ) : Numeral (printReal (some x)) := by
  have hdigits : ∀ ch ∈ List.replicate (7 - (decimal ⌊|x| * 10 ^ 6⌋₊).length) 48 ++
      decimal ⌊|x| * 10 ^ 6⌋₊, isdigit ch = true := by
    intro ch hch
    rcases List.mem_append.mp hch with hzero | hdigit
    · obtain rfl := List.eq_of_mem_replicate hzero
      decide
    · exact isdigit_of_mem_decimal hdigit
  have hpoint : ∀ ch ∈ lit ".", ch = 46 := by decide
  have hminus : ∀ ch ∈ lit "-", ch = 45 := by decide
  unfold printReal
  refine ⟨fun hnil => ?_, fun ch hch => ?_⟩
  · have hmem : (46 : UInt8) ∈ lit "." := by decide
    dsimp only at hnil
    rw [List.append_eq_nil_iff, List.append_eq_nil_iff] at hnil
    rw [hnil.1.2] at hmem
    exact absurd hmem List.not_mem_nil
  · simp only [List.mem_append] at hch
    rcases hch with ((hch | hch) | hch) | hch
    · split at hch
      · exact .inr (.inl (hminus ch hch))
      · exact absurd hch List.not_mem_nil
    · exact .inl (hdigits ch (List.mem_of_mem_take hch))
    · exact .inr (.inr (hpoint ch hch))
    · exact .inl (hdigits ch (List.mem_of_mem_drop hch))

/-- `w` of a word, over the reals. -/
noncomputable def realWeight (size count pages : ℕ) : ℝ :=
  count * Real.logb 2 (size / (pages + 1))

theorem rawWeight_exactReals {size : ℕ} (hsize : 0 < size) (count pages : ℕ) :
    rawWeight exactReals size count pages = some (realWeight size count pages) := by
  have hdenominator : (pages : ℝ) + 1 ≠ 0 := Nat.cast_add_one_ne_zero pages
  have hquotient : (0 : ℝ) < size / (pages + 1) :=
    div_pos (Nat.cast_pos.mpr hsize) (Nat.cast_add_one_pos pages)
  simp [rawWeight, exactReals, realWeight, hdenominator, hquotient]

/-- The weight of a word is zero only when the word is on all pages but one. -/
theorem realWeight_eq_zero {size count pages : ℕ} (hsize : 0 < size) (hcount : 0 < count) :
    realWeight size count pages = 0 ↔ pages + 1 = size := by
  have hpages : (0 : ℝ) < pages + 1 := Nat.cast_add_one_pos pages
  have hquotient : (0 : ℝ) < size / (pages + 1) := div_pos (Nat.cast_pos.mpr hsize) hpages
  have hcast : (count : ℝ) ≠ 0 := Nat.cast_ne_zero.mpr (Nat.pos_iff_ne_zero.mp hcount)
  unfold realWeight
  rw [mul_eq_zero, or_iff_right hcast, Real.logb_eq_zero]
  constructor
  · rintro (h | h | h | h | h | h)
    · norm_num at h
    · norm_num at h
    · norm_num at h
    · exact absurd h hquotient.ne'
    · rw [div_eq_one_iff_eq hpages.ne'] at h
      exact_mod_cast h.symm
    · linarith
  · rintro rfl
    right; right; right; right; left
    rw [div_eq_one_iff_eq hpages.ne']
    push_cast
    rfl

/-- The weight of a word is positive when the word is on fewer pages than that. -/
theorem realWeight_pos {size count pages : ℕ} (hcount : 0 < count) (hpages : pages + 1 < size) :
    0 < realWeight size count pages := by
  have hdenominator : (0 : ℝ) < pages + 1 := Nat.cast_add_one_pos pages
  have hone : (1 : ℝ) < size / (pages + 1) := by
    rw [one_lt_div hdenominator]
    exact_mod_cast hpages
  exact mul_pos (Nat.cast_pos.mpr hcount) (Real.logb_pos one_lt_two hone)

theorem normSum_exactReals (weights : List ℝ) :
    normSum exactReals (weights.map some) = some (weights.map fun w => w * w).sum := by
  have hloop : ∀ (ws : List ℝ) (sum : ℝ),
      (ws.map some).foldl (fun sum w => exactReals.add sum (exactReals.mul w w)) (some sum) =
        some (sum + (ws.map fun w => w * w).sum) := by
    intro ws
    induction ws with
    | nil => exact fun sum => congrArg some (add_zero sum).symm
    | cons w ws ih =>
      intro sum
      rw [List.map_cons, List.foldl_cons, List.map_cons, List.sum_cons, ← add_assoc]
      exact ih (sum + w * w)
  unfold normSum
  have hzero : exactReals.ofNat 0 = some (0 : ℝ) := congrArg some Nat.cast_zero
  rw [hzero, hloop weights 0, zero_add]

theorem squares_nonneg (weights : List ℝ) : 0 ≤ (weights.map fun w => w * w).sum := by
  apply List.sum_nonneg
  intro x hx
  obtain ⟨w, -, rfl⟩ := List.mem_map.mp hx
  exact mul_self_nonneg w

/-- A norm is zero only when all weights are. -/
theorem squares_eq_zero {weights : List ℝ} :
    (weights.map fun w => w * w).sum = 0 ↔ ∀ w ∈ weights, w = 0 := by
  induction weights with
  | nil => exact ⟨fun _ w hw => absurd hw List.not_mem_nil, fun _ => rfl⟩
  | cons w weights ih =>
    rw [List.map_cons, List.sum_cons,
      add_eq_zero_iff_of_nonneg (mul_self_nonneg w) (squares_nonneg weights), ih, mul_self_eq_zero,
      List.forall_mem_cons]

/-- **The exact arithmetic weighs**: a page has weights unless each of its words is on all pages but
one. -/
theorem weighs_exactReals : exactReals.Weighs printReal := by
  constructor
  intro size counts hsize hpos p hp
  have hmap : counts.map (fun p => rawWeight exactReals size p.1 p.2) =
      (counts.map fun p => realWeight size p.1 p.2).map some := by
    rw [List.map_map]
    exact List.map_congr_left fun q _ => rawWeight_exactReals hsize q.1 q.2
  have hzero : (∀ w ∈ counts.map fun p => realWeight size p.1 p.2, w = 0) ↔
      ∀ q ∈ counts, q.2 + 1 = size := by
    rw [List.forall_mem_map]
    exact forall₂_congr fun q hq => realWeight_eq_zero hsize (hpos q hq)
  have hsqrt : exactReals.sqrt (some ((counts.map fun p => realWeight size p.1 p.2).map
      fun w => w * w).sum) = some √((counts.map fun p => realWeight size p.1 p.2).map
      fun w => w * w).sum := if_pos (squares_nonneg _)
  rw [hmap, normSum_exactReals, hsqrt, rawWeight_exactReals hsize]
  have hnorm : ((counts.map fun p => realWeight size p.1 p.2).map fun w => w * w).sum = 0 ↔
      ∀ w ∈ counts.map fun p => realWeight size p.1 p.2, w = 0 := squares_eq_zero
  rw [hzero] at hnorm
  rw [← Real.sqrt_eq_zero (squares_nonneg _)] at hnorm
  generalize √((counts.map fun p => realWeight size p.1 p.2).map fun w => w * w).sum = norm at hnorm
  by_cases h : norm = 0
  · have hdiv : exactReals.div (some (realWeight size p.1 p.2)) (some norm) = none := if_pos h
    rw [hdiv]
    refine ⟨fun hnumeral => absurd hnumeral not_numeral_none, ?_⟩
    rintro ⟨q, hq, hne⟩
    exact absurd (hnorm.mp h q hq) hne
  · have hdiv : exactReals.div (some (realWeight size p.1 p.2)) (some norm) =
        some (realWeight size p.1 p.2 / norm) := if_neg h
    rw [hdiv]
    refine ⟨fun _ => ?_, fun _ => numeral_some _⟩
    by_contra hall
    push Not at hall
    exact h (hnorm.mpr hall)

end LightSearch
