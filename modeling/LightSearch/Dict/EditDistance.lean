import LightSearch.Lib.Run
import LightSearch.Lib.Utf8

/-!
# The edit distance

`editDistance` fills a matrix row by row. The characters of the two strings are found by their first
bytes: `length` counts them before the loops, and the loops cut them out. An index behind the end of
a string is a fault, as is a `substr` from there.

A string is `Whole` when `length` ends inside it: its last character is not cut off. That is all that
the loops need, since they go through the same places as `length` (`editDistance_ok_iff`). Valid UTF-8
is whole, because the first byte of a character has its length (`length_encode`).
-/

set_option autoImplicit false

namespace LightSearch.EditDistance

open Cxx

/-- `nBytesCode`: the ones at the top of the byte, or one. -/
def nBytesCode (ch : UInt8) : Nat :=
  if ch &&& 0x80 ≠ 0 then
    1 + ((List.range 6).takeWhile fun idx => ch &&& (1 <<< (6 - UInt8.ofNat idx)) ≠ 0).length
  else 1

/-- The loop of `length`, when `idx` has to advance over so many bytes before the next character. An
`idx` behind the end of the string is not the end of the loop, and `str[idx]` is read there. -/
def lengthFrom : Nat → Str → Except Fault Nat
  | 0, [] => .ok 0
  | _ + 1, [] => .error .danglingIterator
  | 0, ch :: str => do
    let ilen ← lengthFrom (nBytesCode ch - 1) str
    .ok (ilen + 1)
  | skip + 1, _ :: str => lengthFrom skip str

/-- `length`. -/
def length (str : Str) : Except Fault Nat := lengthFrom 0 str

/-- One character of a string, and where the next one begins. -/
def nextChar (str : Str) (idx : Nat) : Except Fault (Str × Nat) := do
  let nBytes := nBytesCode (← charAt str idx)
  .ok (← substr str idx nBytes, idx + nBytes)

def tripleMin (a b c : Nat) : Nat :=
  if a < b then (if a < c then a else c) else if b < c then b else c

/-- The inner loop: one row from its left neighbour, the row above it, and the corner between. -/
def rowFrom (rhs sublhs : Str) (left corner : Nat) (rhsIdx : Nat) :
    List Nat → Except Fault (List Nat)
  | [] => .ok []
  | above :: rest => do
    let (subrhs, rhsIdx) ← nextChar rhs rhsIdx
    let dist := if sublhs = subrhs then corner else tripleMin (left + 1) (above + 1) (corner + 1)
    let row ← rowFrom rhs sublhs dist above rhsIdx rest
    .ok (dist :: row)

/-- The outer loop: the last of so many more rows, `above` being the row before them. -/
def rowsFrom (lhs rhs : Str) (distI lhsIdx : Nat) (first : Nat) (above : List Nat) :
    Nat → Except Fault (Nat × List Nat)
  | 0 => .ok (first, above)
  | n + 1 => do
    let (sublhs, lhsIdx) ← nextChar lhs lhsIdx
    let row ← rowFrom rhs sublhs distI first 0 above
    rowsFrom lhs rhs (distI + 1) lhsIdx distI row n

/-- `editDistance`: the last number of the last row. A row is its first number and the others. -/
def editDistance (lhs rhs : Str) : Except Fault Nat := do
  let lhsLen ← length lhs
  let rhsLen ← length rhs
  let (first, row) ← rowsFrom lhs rhs 1 0 0 ((List.range rhsLen).map (· + 1)) lhsLen
  .ok ((first :: row).getLast (List.cons_ne_nil _ _))

/-! ## When the loops stay inside -/

/-- A string whose last character is not cut off. -/
def Whole (str : Str) : Prop := ∃ n, length str = .ok n

instance (str : Str) : Decidable (Whole str) :=
  match h : length str with
  | .ok n => isTrue ⟨n, h⟩
  | .error _ => isFalse fun ⟨_, hok⟩ => nomatch h.symm.trans hok

theorem nBytesCode_pos (ch : UInt8) : 0 < nBytesCode ch := by
  unfold nBytesCode
  split
  · exact Nat.add_pos_left Nat.one_pos _
  · exact Nat.one_pos

/-- The bytes to be skipped are there, and the characters behind them are counted. -/
theorem lengthFrom_eq_ok {skip : Nat} {str : Str} {n : Nat} :
    lengthFrom skip str = .ok n ↔ skip ≤ str.length ∧ lengthFrom 0 (str.drop skip) = .ok n := by
  induction str generalizing skip with
  | nil =>
    cases skip with
    | zero => simp
    | succ skip => simp [lengthFrom]
  | cons ch str ih =>
    cases skip with
    | zero => simp
    | succ skip =>
      rw [lengthFrom, ih, List.length_cons, List.drop_succ_cons, Nat.succ_le_succ_iff]

/-- Where `length` found a character, the loops find one, and the rest of the characters behind it. -/
theorem nextChar_ok {str : Str} {idx n : Nat} (h : lengthFrom 0 (str.drop idx) = .ok (n + 1)) :
    ∃ sub next, nextChar str idx = .ok (sub, next) ∧ lengthFrom 0 (str.drop next) = .ok n := by
  cases hdrop : str.drop idx with
  | nil =>
    rw [hdrop] at h
    cases h
  | cons ch rest =>
    rw [hdrop, lengthFrom] at h
    obtain ⟨ilen, hrest, hlen⟩ := Except.bind_eq_ok.mp h
    obtain rfl : ilen = n := Nat.succ.inj (Except.ok.inj hlen)
    have hlt : idx < str.length := by
      by_contra hge
      rw [List.drop_eq_nil_of_le (Nat.le_of_not_lt hge)] at hdrop
      cases hdrop
    have hfirst : charAt str idx = .ok ch := by
      have hget : str[idx]? = some ch := by
        rw [← Nat.add_zero idx, ← List.getElem?_drop, hdrop]
        rfl
      unfold charAt
      rw [if_pos (Nat.le_of_lt hlt), List.getD_eq_getElem?_getD, hget]
      rfl
    have hpart : substr str idx (nBytesCode ch) = .ok ((str.drop idx).take (nBytesCode ch)) :=
      if_pos (Nat.le_of_lt hlt)
    refine ⟨(str.drop idx).take (nBytesCode ch), idx + nBytesCode ch, ?_, ?_⟩
    · unfold nextChar
      rw [hfirst, Except.ok_bind]
      dsimp only
      rw [hpart, Except.ok_bind]
    · rw [← List.drop_drop, hdrop, ← Nat.succ_pred_eq_of_pos (nBytesCode_pos ch)]
      exact (lengthFrom_eq_ok.mp hrest).2

/-- The inner loop goes through the characters of the right string. -/
theorem rowFrom_ok {rhs : Str} (sublhs : Str) (left corner : Nat) {idx : Nat} {above : List Nat}
    (h : lengthFrom 0 (rhs.drop idx) = .ok above.length) :
    ∃ row, rowFrom rhs sublhs left corner idx above = .ok row ∧ row.length = above.length := by
  induction above generalizing left corner idx with
  | nil => exact ⟨[], rfl, rfl⟩
  | cons a above ih =>
    obtain ⟨subrhs, next, hnext, hrest⟩ := nextChar_ok h
    obtain ⟨row, hrow, hlen⟩ :=
      ih (if sublhs = subrhs then corner else tripleMin (left + 1) (a + 1) (corner + 1)) a hrest
    unfold rowFrom
    rw [hnext, Except.ok_bind]
    dsimp only
    rw [hrow, Except.ok_bind]
    exact ⟨_, rfl, congrArg Nat.succ hlen⟩

/-- The outer loop goes through the characters of the left string. -/
theorem rowsFrom_ok {lhs rhs : Str} (distI first : Nat) {idx : Nat} {above : List Nat} {n : Nat}
    (hlhs : lengthFrom 0 (lhs.drop idx) = .ok n) (hrhs : length rhs = .ok above.length) :
    ∃ last, rowsFrom lhs rhs distI idx first above n = .ok last := by
  induction n generalizing distI first idx above with
  | zero => exact ⟨_, rfl⟩
  | succ n ih =>
    obtain ⟨sublhs, next, hnext, hrest⟩ := nextChar_ok hlhs
    have hstart : lengthFrom 0 (rhs.drop 0) = .ok above.length := hrhs
    obtain ⟨row, hrow, hlen⟩ := rowFrom_ok sublhs distI first hstart
    unfold rowsFrom
    rw [hnext, Except.ok_bind]
    dsimp only
    rw [hrow, Except.ok_bind]
    exact ih (distI + 1) distI hrest (hlen ▸ hrhs)

/-- **When the distance can be computed**: when both strings are whole. -/
theorem editDistance_ok_iff {lhs rhs : Str} :
    (∃ dist, editDistance lhs rhs = .ok dist) ↔ Whole lhs ∧ Whole rhs := by
  constructor
  · rintro ⟨dist, h⟩
    obtain ⟨lhsLen, hlhs, hrest⟩ := Except.bind_eq_ok.mp h
    obtain ⟨rhsLen, hrhs, -⟩ := Except.bind_eq_ok.mp hrest
    exact ⟨⟨lhsLen, hlhs⟩, rhsLen, hrhs⟩
  · rintro ⟨⟨lhsLen, hlhs⟩, rhsLen, hrhs⟩
    have hrow : length rhs = .ok ((List.range rhsLen).map (· + 1)).length := by
      rw [hrhs, List.length_map, List.length_range]
    have hstart : lengthFrom 0 (lhs.drop 0) = .ok lhsLen := hlhs
    obtain ⟨last, hlast⟩ := rowsFrom_ok 1 0 hstart hrow
    unfold editDistance
    rw [hlhs, Except.ok_bind, hrhs, Except.ok_bind, hlast, Except.ok_bind]
    exact ⟨_, rfl⟩

/-! ## Valid UTF-8 -/

theorem nBytesCode_lead : ∀ (ch : UInt8),
    (Utf8.Lead 1 ch → nBytesCode ch = 1) ∧ (Utf8.Lead 2 ch → nBytesCode ch = 2) ∧
      (Utf8.Lead 3 ch → nBytesCode ch = 3) ∧ (Utf8.Lead 4 ch → nBytesCode ch = 4) :=
  forall_byte (by decide +kernel)

/-- The first byte of a character has its length. -/
theorem encodeChar_nBytes (c : Char) :
    ∃ ch rest, String.utf8EncodeChar c = ch :: rest ∧ nBytesCode ch = rest.length + 1 := by
  obtain ⟨ch, rest, hc, hlead, hsize, -⟩ := Utf8.encodeChar_shape c
  obtain ⟨hone, htwo, hthree, hfour⟩ := nBytesCode_lead ch
  refine ⟨ch, rest, hc, ?_⟩
  rw [hsize]
  rcases c.utf8Size_eq with h | h | h | h
  · rw [h] at hlead ⊢
    exact hone hlead
  · rw [h] at hlead ⊢
    exact htwo hlead
  · rw [h] at hlead ⊢
    exact hthree hlead
  · rw [h] at hlead ⊢
    exact hfour hlead

theorem lengthFrom_skip (tail str : Str) : lengthFrom tail.length (tail ++ str) = lengthFrom 0 str := by
  induction tail with
  | nil => rfl
  | cons ch tail ih => exact ih

/-- `length` counts the characters of valid UTF-8. -/
theorem length_encode (cs : List Char) : length (Utf8.encode cs) = .ok cs.length := by
  unfold length
  induction cs with
  | nil => rfl
  | cons c cs ih =>
    obtain ⟨ch, rest, hc, hsize⟩ := encodeChar_nBytes c
    rw [Utf8.encode_cons, hc, List.cons_append, lengthFrom, hsize, Nat.add_sub_cancel,
      lengthFrom_skip, ih, Except.ok_bind]
    rfl

theorem whole_encode (cs : List Char) : Whole (Utf8.encode cs) := ⟨cs.length, length_encode cs⟩

end LightSearch.EditDistance
