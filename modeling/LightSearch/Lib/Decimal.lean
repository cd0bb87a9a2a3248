import LightSearch.Lib.Cxx

/-!
# Numbers as text

`std::to_string` of a number that is not negative, and what `atoi` reads: after white space and a
sign, the digits up to the first other character. The second undoes the first
(`atoi_decimal`).
-/

set_option autoImplicit false

namespace Cxx

/-- `std::to_string(n)`. -/
def decimal (n : Nat) : Str := (Nat.toDigits 10 n).map fun c => c.toNat.toUInt8

/-- The value of the digits at the front of a string. -/
def digitsValue (s : Str) : Nat :=
  (s.takeWhile isdigit).foldl (fun n ch => 10 * n + (ch.toNat - 48)) 0

/-- `atoi(s.c_str())`; numbers do not overflow here. -/
def atoi (s : Str) : Int :=
  match (cstr s).dropWhile isspace with
  | 45 :: rest => - (digitsValue rest : Int)
  | 43 :: rest => digitsValue rest
  | rest => digitsValue rest

theorem digit_toNat {c : Char} (h : c.isDigit = true) :
    48 ≤ c.toNat ∧ c.toNat ≤ 57 ∧ c.toNat.toUInt8.toNat = c.toNat := by
  unfold Char.isDigit at h
  rw [Bool.and_eq_true, decide_eq_true_iff, decide_eq_true_iff] at h
  have hlo : 48 ≤ c.toNat := UInt32.le_iff_toNat_le.mp h.1
  have hhi : c.toNat ≤ 57 := UInt32.le_iff_toNat_le.mp h.2
  have hsmall : c.toNat < UInt8.size := by
    unfold UInt8.size
    omega
  exact ⟨hlo, hhi, UInt8.toNat_ofNat_of_lt hsmall⟩

theorem isdigit_iff (ch : UInt8) : isdigit ch = true ↔ 48 ≤ ch.toNat ∧ ch.toNat ≤ 57 := by
  unfold isdigit
  rw [Bool.and_eq_true, decide_eq_true_iff, decide_eq_true_iff, UInt8.le_iff_toNat_le,
    UInt8.le_iff_toNat_le]
  rfl

theorem isdigit_of_mem_decimal {n : Nat} {ch : UInt8} (h : ch ∈ decimal n) : isdigit ch = true := by
  obtain ⟨c, hc, rfl⟩ := List.mem_map.mp h
  obtain ⟨hlo, hhi, hnat⟩ := digit_toNat (Nat.isDigit_of_mem_toDigits (by decide) (by decide) hc)
  rw [isdigit_iff, hnat]
  exact ⟨hlo, hhi⟩

theorem not_mem_decimal {n : Nat} {ch : UInt8} (hch : isdigit ch = false) : ch ∉ decimal n := by
  intro h
  rw [isdigit_of_mem_decimal h] at hch
  cases hch

theorem digitsValue_decimal (n : Nat) : digitsValue (decimal n) = n := by
  have hdigits : (decimal n).takeWhile isdigit = decimal n :=
    List.takeWhile_eq_self_iff.mpr fun _ hch => isdigit_of_mem_decimal hch
  have hvalue : ∀ (l : List Char) (init : Nat), (∀ c ∈ l, c.isDigit = true) →
      (l.map fun c => c.toNat.toUInt8).foldl (fun n ch => 10 * n + (ch.toNat - 48)) init =
        Nat.ofDigitChars 10 l init := by
    intro l
    induction l with
    | nil => exact fun _ _ => rfl
    | cons c l ih =>
      intro init hl
      obtain ⟨-, -, hc⟩ := digit_toNat (hl c List.mem_cons_self)
      rw [List.map_cons, List.foldl_cons, ih _ fun c hc => hl c (List.mem_cons_of_mem _ hc), hc]
      rfl
  unfold digitsValue
  rw [hdigits, decimal, hvalue _ 0 fun c hc => Nat.isDigit_of_mem_toDigits (by decide) (by decide) hc]
  exact Nat.ofDigitChars_ten_toDigits

/-- **Reading a printed number.** -/
theorem atoi_decimal (n : Nat) : atoi (decimal n) = n := by
  have hclean : 0 ∉ decimal n := not_mem_decimal (by decide)
  have hspace : (decimal n).dropWhile isspace = decimal n := by
    cases hn : decimal n with
    | nil => rfl
    | cons ch rest =>
      have hch : isdigit ch = true := isdigit_of_mem_decimal (hn ▸ List.mem_cons_self)
      rw [List.dropWhile_cons, isspace_of_isdigit hch]
      rfl
  unfold atoi
  rw [cstr_of_not_mem hclean, hspace]
  split
  · next rest h =>
    exact absurd (isdigit_of_mem_decimal (n := n) (h ▸ List.mem_cons_self)) (by decide)
  · next rest h =>
    exact absurd (isdigit_of_mem_decimal (n := n) (h ▸ List.mem_cons_self)) (by decide)
  · rw [digitsValue_decimal]

end Cxx
