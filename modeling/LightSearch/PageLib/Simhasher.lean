import Mathlib.InformationTheory.Hamming
import Mathlib.Data.List.Range

/-!
# Comparing fingerprints

`isEqual` of the fingerprint library: two fingerprints count as equal when they differ in at most `n`
bits. It is written twice, for compilers that count bits themselves and with a table of the counts of
a byte. The two agree (`isEqualLut_eq`), and what they decide is the Hamming distance
(`isEqual_iff`).
-/

set_option autoImplicit false

namespace LightSearch.Simhash

/-- `__builtin_popcountll`: the number of ones. -/
def popcount (x : BitVec 64) : Nat := (List.range 64).countP x.getLsbD

/-- `Simhasher::isEqual`. -/
def isEqual (lhs rhs : BitVec 64) (n : Nat) : Bool := popcount (lhs ^^^ rhs) ≤ n

/-- `pop_lut`. -/
def popLut : List Nat :=
  [0, 1, 1, 2, 1, 2, 2, 3, 1, 2, 2, 3, 2, 3, 3, 4,
   1, 2, 2, 3, 2, 3, 3, 4, 2, 3, 3, 4, 3, 4, 4, 5,
   1, 2, 2, 3, 2, 3, 3, 4, 2, 3, 3, 4, 3, 4, 4, 5,
   2, 3, 3, 4, 3, 4, 4, 5, 3, 4, 4, 5, 4, 5, 5, 6,
   1, 2, 2, 3, 2, 3, 3, 4, 2, 3, 3, 4, 3, 4, 4, 5,
   2, 3, 3, 4, 3, 4, 4, 5, 3, 4, 4, 5, 4, 5, 5, 6,
   2, 3, 3, 4, 3, 4, 4, 5, 3, 4, 4, 5, 4, 5, 5, 6,
   3, 4, 4, 5, 4, 5, 5, 6, 4, 5, 5, 6, 5, 6, 6, 7,
   1, 2, 2, 3, 2, 3, 3, 4, 2, 3, 3, 4, 3, 4, 4, 5,
   2, 3, 3, 4, 3, 4, 4, 5, 3, 4, 4, 5, 4, 5, 5, 6,
   2, 3, 3, 4, 3, 4, 4, 5, 3, 4, 4, 5, 4, 5, 5, 6,
   3, 4, 4, 5, 4, 5, 5, 6, 4, 5, 5, 6, 5, 6, 6, 7,
   2, 3, 3, 4, 3, 4, 4, 5, 3, 4, 4, 5, 4, 5, 5, 6,
   3, 4, 4, 5, 4, 5, 5, 6, 4, 5, 5, 6, 5, 6, 6, 7,
   3, 4, 4, 5, 4, 5, 5, 6, 4, 5, 5, 6, 5, 6, 6, 7,
   4, 5, 5, 6, 5, 6, 6, 7, 5, 6, 6, 7, 6, 7, 7, 8]

/-- The loop of the other branch: it counts a byte at a time and stops above `n`. -/
def countLut (lhs : BitVec 64) (cnt n : Nat) : Nat :=
  if h : lhs ≠ 0 ∧ cnt ≤ n then
    have : (lhs >>> 8).toNat < lhs.toNat := by
      have hpos : 0 < lhs.toNat := Nat.pos_of_ne_zero fun h0 => h.1 (BitVec.eq_of_toNat_eq h0)
      rw [BitVec.toNat_ushiftRight, Nat.shiftRight_eq_div_pow]
      exact Nat.div_lt_self hpos (by decide)
    countLut (lhs >>> 8) (cnt + popLut.getD (lhs &&& 0xff).toNat 0) n
  else cnt
termination_by lhs.toNat

/-- `isEqual` of the other compilers. -/
def isEqualLut (lhs rhs : BitVec 64) (n : Nat) : Bool := countLut (lhs ^^^ rhs) 0 n ≤ n

/-! ## The table -/

theorem popLut_eq : popLut = (List.range 256).map fun b => (List.range 8).countP b.testBit := by
  decide +kernel

theorem popLut_byte (b : Fin 256) :
    popLut.getD b 0 = (List.range 8).countP (BitVec.ofFin (w := 8) b).getLsbD := by
  rw [popLut_eq, List.getD_eq_getElem?_getD, List.getElem?_map, List.getElem?_range b.isLt]
  rfl

/-- A byte is counted, and the others are shifted down. -/
theorem popcount_shift (x : BitVec 64) :
    popcount x = popLut.getD (x &&& 0xff).toNat 0 + popcount (x >>> 8) := by
  have hbyte : popLut.getD (x &&& 0xff).toNat 0 = (List.range 8).countP x.getLsbD := by
    have hlow : (x &&& 0xff).toNat = (x.setWidth 8).toFin := by
      simp [BitVec.toNat_and, Nat.and_two_pow_sub_one_eq_mod x.toNat 8]
    rw [hlow, popLut_byte]
    refine List.countP_congr fun i hi => ?_
    have hlt : i < 8 := List.mem_range.mp hi
    have hbit : (x.toNat % 2 ^ 8).testBit i = x.getLsbD i := by
      rw [Nat.testBit_mod_two_pow, BitVec.testBit_toNat]
      simp only [hlt, decide_true, Bool.true_and]
    simpa using hbit
  have hrest : popcount (x >>> 8) = ((List.range 56).map (8 + ·)).countP x.getLsbD := by
    have hsplit : List.range (56 + 8) = List.range 56 ++ (List.range 8).map (56 + ·) :=
      List.range_add
    have hzero : ((List.range 8).map (56 + ·)).countP (x >>> 8).getLsbD = 0 := by
      rw [List.countP_eq_zero]
      intro i hi
      obtain ⟨j, -, rfl⟩ := List.mem_map.mp hi
      simp [BitVec.getLsbD_of_ge x (8 + (56 + j)) (by omega)]
    rw [popcount, hsplit, List.countP_append, hzero, List.countP_map]
    refine List.countP_congr fun i _ => ?_
    simp
  have hsplit : List.range (8 + 56) = List.range 8 ++ (List.range 56).map (8 + ·) := List.range_add
  rw [hbyte, hrest, popcount, hsplit, List.countP_append]

/-- The loop ends above `n` exactly when there are too many ones. -/
theorem countLut_le_iff (lhs : BitVec 64) (cnt n : Nat) :
    countLut lhs cnt n ≤ n ↔ cnt + popcount lhs ≤ n := by
  induction lhs, cnt using countLut.induct (n := n) with
  | case1 lhs cnt h _ ih =>
    rw [countLut, dif_pos h, ih, popcount_shift lhs, Nat.add_assoc]
  | case2 lhs cnt h =>
    rw [countLut, dif_neg h]
    by_cases hzero : lhs = 0
    · have hnone : popcount (0 : BitVec 64) = 0 := by decide
      rw [hzero, hnone, Nat.add_zero]
    · have hle : ¬ cnt ≤ n := fun hle => h ⟨hzero, hle⟩
      omega

/-- **The two branches agree.** -/
theorem isEqualLut_eq (lhs rhs : BitVec 64) (n : Nat) : isEqualLut lhs rhs n = isEqual lhs rhs n := by
  unfold isEqualLut isEqual
  rw [decide_eq_decide, countLut_le_iff, Nat.zero_add]

/-! ## The Hamming distance -/

/-- In how many bits two fingerprints differ. -/
def distance (lhs rhs : BitVec 64) : Nat :=
  hammingDist (fun i : Fin 64 => lhs.getLsbD i) (fun i : Fin 64 => rhs.getLsbD i)

theorem popcount_xor (lhs rhs : BitVec 64) : popcount (lhs ^^^ rhs) = distance lhs rhs := by
  have hrange : List.range 64 = (List.finRange 64).map Fin.val := by simp
  have hcard : distance lhs rhs =
      ((List.finRange 64).filter fun i : Fin 64 => lhs.getLsbD i ≠ rhs.getLsbD i).length := rfl
  rw [popcount, hrange, List.countP_map, List.countP_eq_length_filter, hcard]
  congr 1
  refine List.filter_congr fun i _ => ?_
  rw [Function.comp_apply, BitVec.getLsbD_xor]
  cases lhs.getLsbD i <;> cases rhs.getLsbD i <;> rfl

theorem isEqual_iff {lhs rhs : BitVec 64} {n : Nat} :
    isEqual lhs rhs n = true ↔ distance lhs rhs ≤ n := by
  unfold isEqual
  rw [decide_eq_true_iff, popcount_xor]

theorem distance_comm (lhs rhs : BitVec 64) : distance lhs rhs = distance rhs lhs :=
  hammingDist_comm _ _

end LightSearch.Simhash
