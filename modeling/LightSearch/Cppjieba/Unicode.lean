import LightSearch.Lib.Run
import LightSearch.Lib.Span
import LightSearch.Lib.Utf8
import Mathlib.Algebra.Group.Nat.Defs
import Mathlib.Data.List.Infix

/-!
# Texts as runes

The segmenter works on runes. `DecodeRunesInString` goes over the bytes of a text, and each rune comes
with the place and the number of its bytes; a text that cannot be decoded has no runes at all. A range of
runes is turned back into bytes with the places of its first and its last rune. The places are `uint32_t` in
the program and do not overflow here: the texts are shorter than 4 GiB.

The decoder does not look at continuation bytes, so it takes more than UTF-8. What it accepts it divides
without a gap (`decodeRunesInString_eq_some`), so the bytes of a range are the bytes of its runes
(`Divides.getWordFromRunes_eq`). A text in UTF-8 is always accepted, and its runes are its characters
(`decodeRunesInString_encode`).
-/

set_option autoImplicit false

namespace LightSearch.Cppjieba

open Cxx

abbrev Rune := UInt32

/-- A range of runes; both ends belong to it. -/
abbrev WordRange := Span

structure RuneStrLite where
  rune : Rune
  len : Nat
  deriving DecidableEq

/-- A rune with its place in bytes and in runes. The places of a text below 4 GiB fit a `uint32_t`. -/
structure RuneStr where
  rune : Rune
  offset : Nat
  len : Nat
  unicode_offset : Nat
  unicode_length : Nat
  deriving DecidableEq

/-- A word of a sentence, with the place where it stands in bytes and in runes. -/
structure Word where
  word : Str
  offset : Nat
  unicode_offset : Nat
  unicode_length : Nat
  deriving DecidableEq

/-! ## Decoding -/

/-- `rp.rune <<= 6; rp.rune |= (uint8_t)ch & 0x3f;` -/
def joinRune (rune : Rune) (ch : UInt8) : Rune := rune <<< 6 ||| (ch &&& 0x3f).toUInt32

/-- `DecodeRuneInString`: the first rune, or length 0. -/
def decodeRuneInString (str : Str) : RuneStrLite :=
  let len := str.length
  -- a place behind the end is not read: the length is tested before
  let byte := fun i => str.getD i 0
  if len = 0 then ⟨0, 0⟩
  else if byte 0 &&& 0x80 = 0 then ⟨(byte 0 &&& 0x7f).toUInt32, 1⟩
  else if byte 0 ≤ 0xdf ∧ 1 < len then ⟨joinRune (byte 0 &&& 0x1f).toUInt32 (byte 1), 2⟩
  else if byte 0 ≤ 0xef ∧ 2 < len then
    ⟨joinRune (joinRune (byte 0 &&& 0x0f).toUInt32 (byte 1)) (byte 2), 3⟩
  else if byte 0 ≤ 0xf7 ∧ 3 < len then
    ⟨joinRune (joinRune (joinRune (byte 0 &&& 0x07).toUInt32 (byte 1)) (byte 2)) (byte 3), 4⟩
  else ⟨0, 0⟩

/-- The loop of `DecodeRunesInString` behind the byte `i` and the rune `j`, when so many bytes still belong to
the rune before. Neither counter overflows in a text below 4 GiB. -/
def decodeFrom (i j : Nat) : Nat → Str → Option (List RuneStr)
  | _, [] => some []
  | skip + 1, _ :: s => decodeFrom i j skip s
  | 0, ch :: s =>
    let rp := decodeRuneInString (ch :: s)
    if rp.len = 0 then none
    else
      (decodeFrom (i + rp.len) (j + 1) (rp.len - 1) s).map
        (⟨rp.rune, i, rp.len, j, 1⟩ :: ·)

/-- `DecodeRunesInString`; `none` where it returns `false` and has cleared the runes. -/
def decodeRunesInString (s : Str) : Option (List RuneStr) := decodeFrom 0 0 0 s

/-- `IsSingleWord`. -/
def isSingleWord (str : Str) : Bool := (decodeRuneInString str).len = str.length

/-! ## Ranges as words -/

/-- `GetWordFromRunes`; the range lies in the runes. -/
def getWordFromRunes (s : Str) (runes : List RuneStr) (wr : WordRange) : Except Fault Word :=
  match runes[wr.left]?, runes[wr.right]? with
  | some left, some right => do
    let word ← substr s left.offset (right.offset - left.offset + right.len)
    .ok ⟨word, left.offset, left.unicode_offset,
      right.unicode_offset - left.unicode_offset + right.unicode_length⟩
  | _, _ => .error .danglingIterator

/-- `GetWordsFromWordRanges`. -/
def getWordsFromWordRanges (s : Str) (runes : List RuneStr) (wrs : List WordRange) :
    Except Fault (List Word) :=
  wrs.mapM (getWordFromRunes s runes)

/-- `GetStringsFromWords`. -/
def getStringsFromWords (words : List Word) : List Str := words.map Word.word

/-! ## What the decoder accepts -/

/-- The bytes of the runes, with what the decoder makes of each of them. -/
inductive Divides : Nat → Nat → List Str → List RuneStr → Prop
  | nil (i j : Nat) : Divides i j [] []
  | cons {i j : Nat} {piece : Str} {pieces : List Str} {rune : Rune} {runes : List RuneStr}
    (hne : piece ≠ [])
    (hrune : decodeRuneInString (piece ++ pieces.flatten) = ⟨rune, piece.length⟩)
    (hrest : Divides (i + piece.length) (j + 1) pieces runes) :
    Divides i j (piece :: pieces) (⟨rune, i, piece.length, j, 1⟩ :: runes)

/-- A rune is not longer than the text. -/
theorem len_decodeRuneInString (str : Str) : (decodeRuneInString str).len ≤ str.length := by
  unfold decodeRuneInString
  dsimp only
  split_ifs with hempty hascii htwo hthree hfour
  · exact Nat.zero_le _
  · exact Nat.pos_of_ne_zero hempty
  · exact htwo.2
  · exact hthree.2
  · exact hfour.2
  · exact Nat.zero_le _

theorem decodeFrom_skip (i j : Nat) {skip : Nat} {s : Str} (h : skip ≤ s.length) :
    decodeFrom i j skip s = decodeFrom i j 0 (s.drop skip) := by
  induction skip generalizing s with
  | zero => rw [List.drop_zero]
  | succ skip ih =>
    cases s with
    | nil => cases h
    | cons ch s => exact ih (Nat.le_of_succ_le_succ h)

theorem decodeFrom_zero_cons (i j : Nat) (ch : UInt8) (s : Str) :
    decodeFrom i j 0 (ch :: s) =
      if (decodeRuneInString (ch :: s)).len = 0 then none
      else
        (decodeFrom (i + (decodeRuneInString (ch :: s)).len) (j + 1)
          ((decodeRuneInString (ch :: s)).len - 1) s).map
          (⟨(decodeRuneInString (ch :: s)).rune, i, (decodeRuneInString (ch :: s)).len, j, 1⟩ :: ·) :=
  rfl

/-- The loop goes from rune to rune. -/
theorem decodeFrom_cons (i j : Nat) {piece rest : Str} {rune : Rune} (hne : piece ≠ [])
    (hrune : decodeRuneInString (piece ++ rest) = ⟨rune, piece.length⟩) :
    decodeFrom i j 0 (piece ++ rest) =
      (decodeFrom (i + piece.length) (j + 1) 0 rest).map (⟨rune, i, piece.length, j, 1⟩ :: ·) := by
  cases piece with
  | nil => exact absurd rfl hne
  | cons ch piece =>
    rw [List.cons_append] at hrune ⊢
    have hpos : (ch :: piece).length ≠ 0 := Nat.succ_ne_zero _
    have hskip : (ch :: piece).length - 1 = piece.length := rfl
    rw [decodeFrom_zero_cons, hrune]
    dsimp only
    rw [if_neg hpos, hskip, decodeFrom_skip _ _ (by rw [List.length_append]; omega),
      List.drop_left]

/-- **The decoder accepts** the texts that can be divided, and returns their runes. -/
theorem decodeFrom_eq_some {i j : Nat} {s : Str} {runes : List RuneStr} :
    decodeFrom i j 0 s = some runes ↔ ∃ pieces, pieces.flatten = s ∧ Divides i j pieces runes := by
  constructor
  · intro h
    induction hn : s.length using Nat.strongRecOn generalizing i j s runes with
    | ind n ih =>
      cases s with
      | nil =>
        obtain rfl := Option.some.inj h
        exact ⟨[], rfl, .nil i j⟩
      | cons ch s =>
        have hlen := len_decodeRuneInString (ch :: s)
        by_cases hzero : (decodeRuneInString (ch :: s)).len = 0
        · rw [decodeFrom_zero_cons, if_pos hzero] at h
          cases h
        · obtain ⟨piece, rest, hsplit, hpiece⟩ : ∃ piece rest, ch :: s = piece ++ rest ∧
              piece.length = (decodeRuneInString (ch :: s)).len :=
            ⟨_, _, (List.take_append_drop _ _).symm, List.length_take_of_le hlen⟩
          have hne : piece ≠ [] := List.ne_nil_of_length_pos (by omega)
          rw [hsplit] at h hpiece hn
          have hrune : decodeRuneInString (piece ++ rest) =
              ⟨(decodeRuneInString (piece ++ rest)).rune, piece.length⟩ := by rw [hpiece]
          rw [decodeFrom_cons i j hne hrune] at h
          obtain ⟨runes', hrest, rfl⟩ := Option.map_eq_some_iff.mp h
          have hpos := List.length_pos_of_ne_nil hne
          rw [List.length_append] at hn
          obtain ⟨pieces, rfl, hdivides⟩ := ih rest.length (by omega) hrest rfl
          exact ⟨piece :: pieces, hsplit.symm, .cons hne hrune hdivides⟩
  · rintro ⟨pieces, rfl, h⟩
    induction h with
    | nil => rfl
    | cons hne hrune _ ih =>
      rw [List.flatten_cons, decodeFrom_cons _ _ hne hrune, ih]
      rfl

theorem decodeRunesInString_eq_some {s : Str} {runes : List RuneStr} :
    decodeRunesInString s = some runes ↔ ∃ pieces, pieces.flatten = s ∧ Divides 0 0 pieces runes :=
  decodeFrom_eq_some

/-! ## The bytes of a range -/

namespace Divides

variable {i j : Nat} {pieces : List Str} {runes : List RuneStr}

theorem length_eq (h : Divides i j pieces runes) : pieces.length = runes.length := by
  induction h with
  | nil => rfl
  | cons _ _ _ ih => rw [List.length_cons, List.length_cons, ih]

theorem ne_nil (h : Divides i j pieces runes) : ∀ piece ∈ pieces, piece ≠ [] := by
  induction h with
  | nil => exact fun _ hmem => absurd hmem List.not_mem_nil
  | cons hne _ _ ih => exact List.forall_mem_cons.mpr ⟨hne, ih⟩

/-- A range of runes has bytes. -/
theorem slice_ne_nil (h : Divides i j pieces runes) {wr : WordRange} (hle : wr.left ≤ wr.right)
    (hlt : wr.right < runes.length) : (wr.slice pieces).flatten ≠ [] := by
  have hlength := Span.length_slice (l := pieces) (s := wr) (by rwa [h.length_eq])
  intro hnil
  obtain ⟨piece, hpiece⟩ := List.exists_mem_of_length_pos (l := wr.slice pieces) (by omega)
  exact h.ne_nil piece ((Span.slice_infix pieces wr).subset hpiece)
    (List.flatten_eq_nil_iff.mp hnil piece hpiece)

/-- Where a rune stands. -/
theorem get (h : Divides i j pieces runes) {k : Nat} {r : RuneStr} (hr : runes[k]? = some r) :
    ∃ piece, pieces[k]? = some piece ∧ r.offset = i + (pieces.take k).flatten.length ∧
      r.len = piece.length ∧ r.unicode_offset = j + k ∧ r.unicode_length = 1 := by
  induction h generalizing k with
  | nil => cases hr
  | @cons i j piece pieces rune runes hne hrune hrest ih =>
    cases k with
    | zero =>
      obtain rfl := Option.some.inj hr
      exact ⟨piece, rfl, rfl, rfl, rfl, rfl⟩
    | succ k =>
      obtain ⟨piece', hpiece, hoffset, hlen, hunicode, hone⟩ := ih hr
      refine ⟨piece', hpiece, ?_, hlen, ?_, hone⟩
      · rw [hoffset, List.take_succ_cons, List.flatten_cons, List.length_append, Nat.add_assoc]
      · omega

/-- The bytes from the first rune of a range to its last. -/
theorem substr_range (h : Divides 0 0 pieces runes) {wr : WordRange} (hle : wr.left ≤ wr.right)
    {left right : RuneStr} (hleft : runes[wr.left]? = some left)
    (hright : runes[wr.right]? = some right) :
    substr pieces.flatten left.offset (right.offset - left.offset + right.len) =
      .ok (wr.slice pieces).flatten := by
  obtain ⟨first, -, hoffset, -, -, -⟩ := h.get hleft
  obtain ⟨last, hlast, hoffset', hlen, -, -⟩ := h.get hright
  rw [Nat.zero_add] at hoffset hoffset'
  -- what lies before the range, in it, and behind it
  have hin : pieces.take (wr.right + 1) = pieces.take wr.left ++ wr.slice pieces := by
    have hsum : wr.right + 1 = wr.left + (wr.right + 1 - wr.left) := by omega
    rw [Span.slice, ← List.take_add, ← hsum]
  have hsplit : pieces.flatten = (pieces.take wr.left).flatten ++
      ((wr.slice pieces).flatten ++ (pieces.drop (wr.right + 1)).flatten) := by
    conv => lhs; rw [← List.take_append_drop (wr.right + 1) pieces, hin]
    rw [List.flatten_append, List.flatten_append, List.append_assoc]
  have hend : right.offset + right.len =
      (pieces.take wr.left).flatten.length + (wr.slice pieces).flatten.length := by
    rw [hoffset', hlen, ← List.length_append, ← List.length_append, ← List.flatten_append, ← hin,
      List.take_add_one, hlast, List.flatten_append]
    simp
  have hsuffix : left.offset ≤ right.offset := by
    rw [hoffset, hoffset']
    exact (List.IsPrefix.flatten (List.take_prefix_take_left hle)).length_le
  have hlength : right.offset - left.offset + right.len = (wr.slice pieces).flatten.length := by omega
  unfold substr
  rw [hlength, if_pos (by rw [hsplit, List.length_append]; omega), hsplit, hoffset, List.drop_left,
    List.take_left]

/-- **The word of a range** is the bytes of its runes. -/
theorem getWordFromRunes_eq (h : Divides 0 0 pieces runes) {wr : WordRange}
    (hle : wr.left ≤ wr.right) (hlt : wr.right < runes.length) :
    getWordFromRunes pieces.flatten runes wr =
      .ok ⟨(wr.slice pieces).flatten, (pieces.take wr.left).flatten.length, wr.left,
        wr.right - wr.left + 1⟩ := by
  have hleft : runes[wr.left]? = some runes[wr.left] :=
    List.getElem?_eq_getElem (Nat.lt_of_le_of_lt hle hlt)
  have hright : runes[wr.right]? = some runes[wr.right] := List.getElem?_eq_getElem hlt
  obtain ⟨-, -, hoffset, -, hunicode, -⟩ := h.get hleft
  obtain ⟨-, -, -, -, hunicode', hone⟩ := h.get hright
  unfold getWordFromRunes
  rw [hleft, hright]
  dsimp only
  rw [h.substr_range hle hleft hright, Except.ok_bind, hoffset, hunicode, hunicode', hone,
    Nat.zero_add, Nat.zero_add, Nat.zero_add]

theorem getWordsFromWordRanges_eq (h : Divides 0 0 pieces runes) {wrs : List WordRange}
    (hwrs : ∀ wr ∈ wrs, wr.left ≤ wr.right ∧ wr.right < runes.length) :
    ∃ words, getWordsFromWordRanges pieces.flatten runes wrs = .ok words ∧
      getStringsFromWords words = wrs.map fun wr => (wr.slice pieces).flatten := by
  refine ⟨_, Except.mapM_ok fun wr hwr => h.getWordFromRunes_eq (hwrs wr hwr).1 (hwrs wr hwr).2, ?_⟩
  unfold getStringsFromWords
  rw [List.map_map]
  rfl

end Divides

/-! ## Texts in UTF-8 -/

theorem toNat_joinRune {r : Rune} (h : r.toNat < 2 ^ 26) (ch : UInt8) :
    (joinRune r ch).toNat = r.toNat * 64 + ch.toNat % 64 := by
  have hlow : (ch &&& 0x3f).toUInt32.toNat = ch.toNat % 64 := by
    rw [UInt8.toNat_toUInt32, UInt8.toNat_and]
    exact Nat.and_two_pow_sub_one_eq_mod ch.toNat 6
  have hhigh : (r <<< 6).toNat = r.toNat * 64 := by
    rw [UInt32.toNat_shiftLeft]
    show r.toNat <<< 6 % 2 ^ 32 = _
    rw [Nat.shiftLeft_eq, Nat.mod_eq_of_lt (by omega)]
  have hjoin : r.toNat * 64 + ch.toNat % 64 = r.toNat * 64 ||| ch.toNat % 64 := by
    have hlt : ch.toNat % 64 < 2 ^ 6 := Nat.mod_lt _ (by decide)
    rw [Nat.mul_comm]
    exact Nat.two_pow_add_eq_or_of_lt hlt r.toNat
  unfold joinRune
  rw [UInt32.toNat_or, hhigh, hlow, hjoin]

/-- What the decoder keeps of a first byte and of the others. -/
theorem masks : ∀ x : UInt8,
    (x &&& 0x7f).toNat = x.toNat % 128 ∧
    ((x &&& 0x1f ||| 0xc0) &&& 0x1f).toNat = x.toNat % 32 ∧
    ((x &&& 0x0f ||| 0xe0) &&& 0x0f).toNat = x.toNat % 16 ∧
    ((x &&& 0x07 ||| 0xf0) &&& 0x07).toNat = x.toNat % 8 ∧
    (x &&& 0x3f ||| 0x80).toNat % 64 = x.toNat % 64 :=
  forall_byte (by decide +kernel)

/-- Which branch the first byte of a character goes to. -/
theorem firstBytes : ∀ x : UInt8,
    (x < 128 → x &&& 0x80 = 0) ∧
    ((x &&& 0x1f ||| 0xc0) &&& 0x80 ≠ 0 ∧ x &&& 0x1f ||| 0xc0 ≤ 0xdf) ∧
    ((x &&& 0x0f ||| 0xe0) &&& 0x80 ≠ 0 ∧ ¬ x &&& 0x0f ||| 0xe0 ≤ 0xdf ∧
      x &&& 0x0f ||| 0xe0 ≤ 0xef) ∧
    ((x &&& 0x07 ||| 0xf0) &&& 0x80 ≠ 0 ∧ ¬ x &&& 0x07 ||| 0xf0 ≤ 0xdf ∧
      ¬ x &&& 0x07 ||| 0xf0 ≤ 0xef ∧ x &&& 0x07 ||| 0xf0 ≤ 0xf7) :=
  forall_byte (by decide +kernel)

/-! One lemma for each length of a rune. -/

section Branches

variable {a b c d : UInt8} {s : Str}

theorem decodeRuneInString_one (h : a &&& 0x80 = 0) :
    decodeRuneInString (a :: s) = ⟨(a &&& 0x7f).toUInt32, 1⟩ := by
  unfold decodeRuneInString
  exact if_pos h

theorem decodeRuneInString_two (h : a &&& 0x80 ≠ 0) (hle : a ≤ 0xdf) :
    decodeRuneInString (a :: b :: s) = ⟨joinRune (a &&& 0x1f).toUInt32 b, 2⟩ := by
  have hlong : 1 < (a :: b :: s).length := by simp
  unfold decodeRuneInString
  exact (if_neg h).trans (if_pos ⟨hle, hlong⟩)

theorem decodeRuneInString_three (h : a &&& 0x80 ≠ 0) (hlt : ¬ a ≤ 0xdf) (hle : a ≤ 0xef) :
    decodeRuneInString (a :: b :: c :: s) =
      ⟨joinRune (joinRune (a &&& 0x0f).toUInt32 b) c, 3⟩ := by
  have hlong : 2 < (a :: b :: c :: s).length := by simp
  unfold decodeRuneInString
  exact (if_neg h).trans ((if_neg fun hand => hlt hand.1).trans (if_pos ⟨hle, hlong⟩))

theorem decodeRuneInString_four (h : a &&& 0x80 ≠ 0) (hlt : ¬ a ≤ 0xdf) (hlt' : ¬ a ≤ 0xef)
    (hle : a ≤ 0xf7) :
    decodeRuneInString (a :: b :: c :: d :: s) =
      ⟨joinRune (joinRune (joinRune (a &&& 0x07).toUInt32 b) c) d, 4⟩ := by
  have hlong : 3 < (a :: b :: c :: d :: s).length := by simp
  unfold decodeRuneInString
  exact (if_neg h).trans ((if_neg fun hand => hlt hand.1).trans
    ((if_neg fun hand => hlt' hand.1).trans (if_pos ⟨hle, hlong⟩)))

end Branches

section Characters

variable {c : Char}

theorem toNat_toUInt8_shift (k : UInt32) :
    (c.val >>> k).toUInt8.toNat = c.val.toNat / 2 ^ (k.toNat % 32) % 256 := by
  rw [UInt32.toNat_toUInt8, UInt32.toNat_shiftRight, Nat.shiftRight_eq_div_pow]

theorem decodeRuneInString_char_one (h : c.utf8Size = 1) (s : Str) :
    decodeRuneInString (String.utf8EncodeChar c ++ s) = ⟨c.val, 1⟩ := by
  have hle : c.val.toNat ≤ 127 := UInt32.le_iff_toNat_le.mp (Char.utf8Size_eq_one_iff.mp h)
  have hbyte : c.val.toUInt8.toNat = c.val.toNat % 256 := c.val.toNat_toUInt8
  have hlt : c.val.toUInt8 < 128 := by
    rw [UInt8.lt_iff_toNat_lt, hbyte]
    exact Nat.lt_of_le_of_lt (Nat.mod_le _ _) (Nat.lt_succ_of_le hle)
  have hrune : (c.val.toUInt8 &&& 0x7f).toUInt32 = c.val := by
    apply UInt32.toNat_inj.mp
    rw [UInt8.toNat_toUInt32, (masks c.val.toUInt8).1, hbyte]
    omega
  rw [String.utf8EncodeChar_eq_singleton h, List.singleton_append,
    decodeRuneInString_one ((firstBytes c.val.toUInt8).1 hlt), hrune]

theorem decodeRuneInString_char_two (h : c.utf8Size = 2) (s : Str) :
    decodeRuneInString (String.utf8EncodeChar c ++ s) = ⟨c.val, 2⟩ := by
  have hle : c.val.toNat ≤ 0x7ff := UInt32.le_iff_toNat_le.mp (Char.utf8Size_eq_two_iff.mp h).2
  have hbyte : c.val.toUInt8.toNat = c.val.toNat % 256 := c.val.toNat_toUInt8
  obtain ⟨hlead, hleft⟩ := (firstBytes (c.val >>> 6).toUInt8).2.1
  have hfirst := (masks (c.val >>> 6).toUInt8).2.1
  have hsecond := (masks c.val.toUInt8).2.2.2.2
  have hsix : (6 : UInt32).toNat % 32 = 6 := rfl
  rw [toNat_toUInt8_shift, hsix] at hfirst
  rw [hbyte] at hsecond
  have hrune : joinRune (((c.val >>> 6).toUInt8 &&& 0x1f ||| 0xc0) &&& 0x1f).toUInt32
      (c.val.toUInt8 &&& 0x3f ||| 0x80) = c.val := by
    apply UInt32.toNat_inj.mp
    rw [toNat_joinRune (by rw [UInt8.toNat_toUInt32]; omega), UInt8.toNat_toUInt32, hfirst, hsecond]
    omega
  rw [String.utf8EncodeChar_eq_cons_cons h, List.cons_append, List.singleton_append,
    decodeRuneInString_two hlead hleft, hrune]

theorem decodeRuneInString_char_three (h : c.utf8Size = 3) (s : Str) :
    decodeRuneInString (String.utf8EncodeChar c ++ s) = ⟨c.val, 3⟩ := by
  have hle : c.val.toNat ≤ 0xffff :=
    UInt32.le_iff_toNat_le.mp (Char.utf8Size_eq_three_iff.mp h).2
  have hbyte : c.val.toUInt8.toNat = c.val.toNat % 256 := c.val.toNat_toUInt8
  obtain ⟨hlead, hnot, hleft⟩ := (firstBytes (c.val >>> 12).toUInt8).2.2.1
  have hfirst := (masks (c.val >>> 12).toUInt8).2.2.1
  have hsecond := (masks (c.val >>> 6).toUInt8).2.2.2.2
  have hthird := (masks c.val.toUInt8).2.2.2.2
  have htwelve : (12 : UInt32).toNat % 32 = 12 := rfl
  have hsix : (6 : UInt32).toNat % 32 = 6 := rfl
  rw [toNat_toUInt8_shift, htwelve] at hfirst
  rw [toNat_toUInt8_shift, hsix] at hsecond
  rw [hbyte] at hthird
  have hrune : joinRune (joinRune (((c.val >>> 12).toUInt8 &&& 0x0f ||| 0xe0) &&& 0x0f).toUInt32
      ((c.val >>> 6).toUInt8 &&& 0x3f ||| 0x80)) (c.val.toUInt8 &&& 0x3f ||| 0x80) = c.val := by
    have hjoined := toNat_joinRune (r := (((c.val >>> 12).toUInt8 &&& 0x0f ||| 0xe0) &&&
      0x0f).toUInt32) (by rw [UInt8.toNat_toUInt32]; omega) ((c.val >>> 6).toUInt8 &&& 0x3f ||| 0x80)
    rw [UInt8.toNat_toUInt32, hfirst, hsecond] at hjoined
    apply UInt32.toNat_inj.mp
    rw [toNat_joinRune (by omega), hjoined, hthird]
    omega
  rw [String.utf8EncodeChar_eq_cons_cons_cons h, List.cons_append, List.cons_append,
    List.singleton_append, decodeRuneInString_three hlead hnot hleft, hrune]

theorem decodeRuneInString_char_four (h : c.utf8Size = 4) (s : Str) :
    decodeRuneInString (String.utf8EncodeChar c ++ s) = ⟨c.val, 4⟩ := by
  have hlt : c.val.toNat < 0x110000 := by
    rcases c.valid with hvalid | hvalid
    · exact Nat.lt_trans hvalid (by decide)
    · exact hvalid.2
  have hbyte : c.val.toUInt8.toNat = c.val.toNat % 256 := c.val.toNat_toUInt8
  obtain ⟨hlead, hnot, hnot', hleft⟩ := (firstBytes (c.val >>> 18).toUInt8).2.2.2
  have hfirst := (masks (c.val >>> 18).toUInt8).2.2.2.1
  have hsecond := (masks (c.val >>> 12).toUInt8).2.2.2.2
  have hthird := (masks (c.val >>> 6).toUInt8).2.2.2.2
  have hfourth := (masks c.val.toUInt8).2.2.2.2
  have heighteen : (18 : UInt32).toNat % 32 = 18 := rfl
  have htwelve : (12 : UInt32).toNat % 32 = 12 := rfl
  have hsix : (6 : UInt32).toNat % 32 = 6 := rfl
  rw [toNat_toUInt8_shift, heighteen] at hfirst
  rw [toNat_toUInt8_shift, htwelve] at hsecond
  rw [toNat_toUInt8_shift, hsix] at hthird
  rw [hbyte] at hfourth
  have hrune : joinRune (joinRune (joinRune
      (((c.val >>> 18).toUInt8 &&& 0x07 ||| 0xf0) &&& 0x07).toUInt32
      ((c.val >>> 12).toUInt8 &&& 0x3f ||| 0x80)) ((c.val >>> 6).toUInt8 &&& 0x3f ||| 0x80))
      (c.val.toUInt8 &&& 0x3f ||| 0x80) = c.val := by
    have hjoined := toNat_joinRune (r := (((c.val >>> 18).toUInt8 &&& 0x07 ||| 0xf0) &&&
      0x07).toUInt32) (by rw [UInt8.toNat_toUInt32]; omega) ((c.val >>> 12).toUInt8 &&& 0x3f ||| 0x80)
    rw [UInt8.toNat_toUInt32, hfirst, hsecond] at hjoined
    have hjoined' := toNat_joinRune (lt_of_eq_of_lt hjoined (by omega))
      ((c.val >>> 6).toUInt8 &&& 0x3f ||| 0x80)
    rw [hjoined, hthird] at hjoined'
    apply UInt32.toNat_inj.mp
    rw [toNat_joinRune (by omega), hjoined', hfourth]
    omega
  rw [String.utf8EncodeChar_eq_cons_cons_cons_cons h, List.cons_append, List.cons_append,
    List.cons_append, List.singleton_append, decodeRuneInString_four hlead hnot hnot' hleft, hrune]

/-- **A character is decoded**, whatever stands behind it. -/
theorem decodeRuneInString_encodeChar (c : Char) (s : Str) :
    decodeRuneInString (String.utf8EncodeChar c ++ s) = ⟨c.val, c.utf8Size⟩ := by
  rcases c.utf8Size_eq with h | h | h | h <;> rw [h]
  · exact decodeRuneInString_char_one h s
  · exact decodeRuneInString_char_two h s
  · exact decodeRuneInString_char_three h s
  · exact decodeRuneInString_char_four h s

end Characters

/-- **A text in UTF-8 is accepted**, and its runes are its characters. -/
theorem decodeRunesInString_encode (cs : List Char) :
    ∃ runes, decodeRunesInString (Utf8.encode cs) = some runes ∧
      runes.map RuneStr.rune = cs.map Char.val ∧
      Divides 0 0 (cs.map String.utf8EncodeChar) runes := by
  have hdivides : ∀ (cs : List Char) (i j : Nat), ∃ runes, runes.map RuneStr.rune = cs.map Char.val ∧
      Divides i j (cs.map String.utf8EncodeChar) runes := by
    intro cs
    induction cs with
    | nil => exact fun i j => ⟨[], rfl, .nil i j⟩
    | cons c cs ih =>
      intro i j
      have hlength := String.length_utf8EncodeChar c
      obtain ⟨runes, hrunes, hrest⟩ := ih (i + (String.utf8EncodeChar c).length) (j + 1)
      refine ⟨⟨c.val, i, _, j, 1⟩ :: runes, congrArg (c.val :: ·) hrunes, .cons ?_ ?_ hrest⟩
      · exact List.ne_nil_of_length_pos (hlength ▸ c.utf8Size_pos)
      · rw [hlength]
        exact decodeRuneInString_encodeChar c _
  obtain ⟨runes, hrunes, h⟩ := hdivides cs 0 0
  refine ⟨runes, decodeRunesInString_eq_some.mpr ⟨_, ?_, h⟩, hrunes, h⟩
  rw [Utf8.encode, List.flatMap_def]

/-- **Ranges of characters come back as they are.** A text in UTF-8 has a rune for each of its characters,
and the words of ranges are the characters in them, with the places where they stand in bytes and in
characters. -/
theorem getWordsFromWordRanges_encode (cs : List Char) :
    ∃ runes, decodeRunesInString (Utf8.encode cs) = some runes ∧
      runes.map RuneStr.rune = cs.map Char.val ∧
      ∀ wrs : List WordRange, (∀ wr ∈ wrs, wr.left ≤ wr.right ∧ wr.right < cs.length) →
        getWordsFromWordRanges (Utf8.encode cs) runes wrs = .ok (wrs.map fun wr =>
          ⟨Utf8.encode (wr.slice cs), (Utf8.encode (cs.take wr.left)).length, wr.left,
            wr.right - wr.left + 1⟩) := by
  obtain ⟨runes, hdecode, hrunes, hdivides⟩ := decodeRunesInString_encode cs
  refine ⟨runes, hdecode, hrunes, fun wrs hwrs => Except.mapM_ok fun wr hwr => ?_⟩
  obtain ⟨hle, hlt⟩ := hwrs wr hwr
  have hlength : runes.length = cs.length := by rw [← hdivides.length_eq, List.length_map]
  have hbytes : ∀ ds : List Char, (ds.map String.utf8EncodeChar).flatten = Utf8.encode ds :=
    fun ds => (List.flatMap_def ..).symm
  have hword := hdivides.getWordFromRunes_eq hle (hlength ▸ hlt)
  rwa [hbytes, Span.slice_map, hbytes, ← List.map_take, hbytes] at hword

end LightSearch.Cppjieba
