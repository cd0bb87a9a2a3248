import Mathlib.Algebra.BigOperators.Group.List.Basic
import Mathlib.Algebra.Order.BigOperators.Group.Finset
import Mathlib.Tactic.Abel

/-!
# Weighted majorities

Each ballot names a voter and a weight, and each voter stands on one of two sides. A question passes when
the weights of those for it outweigh the others (`tally_pos_iff`). Only what each voter weighs in all
matters (`tally_eq_sum`). So a question that passes or fails by more than the ballots change has the same
outcome afterwards (`pos_iff_of_change_lt`).
-/

set_option autoImplicit false

universe u v

namespace Majority

variable {K : Type u} {W : Type v} [AddCommGroup W]

/-- A weight, for or against. -/
def signed (side : Bool) (w : W) : W := if side then w else -w

theorem signed_zero (side : Bool) : signed side (0 : W) = 0 := by cases side <;> simp [signed]

theorem signed_add (side : Bool) (w w' : W) : signed side (w + w') = signed side w + signed side w' := by
  cases side
  · exact neg_add w w'
  · rfl

theorem signed_sub (side : Bool) (w w' : W) : signed side (w - w') = signed side w - signed side w' := by
  cases side
  · exact neg_sub' w w'
  · rfl

/-- The weights for less the weights against. -/
def tally (side : K → Bool) (ballots : List (K × W)) : W :=
  (ballots.map fun b => signed (side b.1) b.2).sum

@[simp] theorem tally_nil (side : K → Bool) : tally side ([] : List (K × W)) = 0 := rfl

@[simp] theorem tally_cons (side : K → Bool) (b : K × W) (ballots : List (K × W)) :
    tally side (b :: ballots) = signed (side b.1) b.2 + tally side ballots := by simp [tally]

/-- The weight of the voters on one side. -/
def weightOf (p : K → Bool) (ballots : List (K × W)) : W :=
  ((ballots.filter fun b => p b.1).map Prod.snd).sum

theorem weightOf_cons (p : K → Bool) (b : K × W) (ballots : List (K × W)) :
    weightOf p (b :: ballots) = (if p b.1 then b.2 else 0) + weightOf p ballots := by
  unfold weightOf
  rw [List.filter_cons]
  split
  · simp
  · exact (zero_add _).symm

theorem tally_eq_sub (side : K → Bool) (ballots : List (K × W)) :
    tally side ballots = weightOf side ballots - weightOf (fun k => !side k) ballots := by
  induction ballots with
  | nil => exact (sub_self 0).symm
  | cons b ballots ih =>
    rw [tally_cons, weightOf_cons, weightOf_cons, ih]
    cases h : side b.1
    · simp only [signed, Bool.false_eq_true, if_false, Bool.not_false, if_true, zero_add]
      abel
    · simp only [signed, if_true, Bool.not_true, Bool.false_eq_true, if_false, zero_add]
      abel

section Voters

variable [DecidableEq K]

/-- What one voter weighs in all. -/
def weight (ballots : List (K × W)) (k : K) : W := weightOf (fun k' => decide (k' = k)) ballots

/-- **Only what each voter weighs matters.** -/
theorem tally_eq_sum {side : K → Bool} {ballots : List (K × W)} {voters : Finset K}
    (h : ∀ b ∈ ballots, b.1 ∈ voters) :
    tally side ballots = ∑ k ∈ voters, signed (side k) (weight ballots k) := by
  induction ballots with
  | nil => exact (Finset.sum_eq_zero fun k _ => signed_zero _).symm
  | cons b ballots ih =>
    have hone : ∑ k ∈ voters, signed (side k) (if b.1 = k then b.2 else 0) = signed (side b.1) b.2 := by
      have hmem := h b List.mem_cons_self
      rw [Finset.sum_eq_single b.1 (fun k _ hne => by rw [if_neg (Ne.symm hne), signed_zero])
        (fun hnot => absurd hmem hnot), if_pos rfl]
    have hrest := ih fun b' hb' => h b' (List.mem_cons_of_mem _ hb')
    rw [tally_cons, hrest, ← hone, ← Finset.sum_add_distrib]
    refine Finset.sum_congr rfl fun k _ => ?_
    unfold weight
    rw [weightOf_cons, ← signed_add]
    simp only [decide_eq_true_eq]

end Voters

variable [LinearOrder W] [IsOrderedAddMonoid W]

/-- **A question passes** when those for it outweigh the others. -/
theorem tally_pos_iff {side : K → Bool} {ballots : List (K × W)} :
    0 < tally side ballots ↔ weightOf (fun k => !side k) ballots < weightOf side ballots := by
  rw [tally_eq_sub, sub_pos]

omit [IsOrderedAddMonoid W] in
theorem abs_signed (side : Bool) (w : W) : |signed side w| = |w| := by
  cases side
  · exact abs_neg w
  · rfl

variable [DecidableEq K]

/-- How much the weights of all voters change. -/
def change (ballots ballots' : List (K × W)) : W :=
  ∑ k ∈ ((ballots ++ ballots').map Prod.fst).toFinset, |weight ballots k - weight ballots' k|

theorem abs_tally_sub_le (side : K → Bool) (ballots ballots' : List (K × W)) :
    |tally side ballots - tally side ballots'| ≤ change ballots ballots' := by
  have hvoters : ∀ b ∈ ballots ++ ballots', b.1 ∈ ((ballots ++ ballots').map Prod.fst).toFinset :=
    fun b hb => List.mem_toFinset.mpr (List.mem_map_of_mem hb)
  rw [tally_eq_sum (fun b hb => hvoters b (List.mem_append_left _ hb)),
    tally_eq_sum (fun b hb => hvoters b (List.mem_append_right _ hb)), ← Finset.sum_sub_distrib]
  refine (Finset.abs_sum_le_sum_abs _ _).trans (Finset.sum_le_sum fun k _ => ?_)
  rw [← signed_sub, abs_signed]

/-- **A clear outcome stays.** -/
theorem pos_iff_of_change_lt {side : K → Bool} {ballots ballots' : List (K × W)}
    (h : change ballots ballots' < |tally side ballots|) :
    0 < tally side ballots ↔ 0 < tally side ballots' := by
  have hlt := (abs_tally_sub_le side ballots ballots').trans_lt h
  obtain ⟨hlow, hhigh⟩ := abs_lt.mp hlt
  rcases lt_or_ge 0 (tally side ballots) with hpos | hneg
  · rw [abs_of_pos hpos, sub_lt_self_iff] at hhigh
    exact iff_of_true hpos hhigh
  · rw [abs_of_nonpos hneg, neg_neg, sub_eq_add_neg, lt_add_iff_pos_right, neg_pos] at hlow
    exact iff_of_false hneg.not_gt hlow.not_gt

end Majority
