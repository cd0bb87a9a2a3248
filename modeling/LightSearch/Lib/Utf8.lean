import LightSearch.Lib.Cxx
import Mathlib.Data.List.GetD

/-!
# Texts in UTF-8

A byte string is valid UTF-8 when it encodes a list of characters, and the list is then determined
(`encode_injective`). The encoding of a character is a lead byte and continuation bytes, and no lead
byte is a continuation byte, so a character that stands somewhere in an encoded text stands on the
boundaries of its characters (`encode_split`). Each byte of a text is a lead byte or a continuation byte
of one character (`char_at`), and a part of a text is a text itself exactly when it begins and ends on
boundaries (`slice_iff`).

From any bytes `ignore` keeps the characters and leaves out the other bytes: what is left is a text
(`valid_ignore`), and a text stays as it is (`ignore_encode`).
-/

set_option autoImplicit false

namespace Utf8

open Cxx

/-- The UTF-8 encoding of a text. -/
def encode (cs : List Char) : Str := cs.flatMap String.utf8EncodeChar

@[simp] theorem encode_nil : encode [] = [] := rfl

@[simp] theorem encode_cons (c : Char) (cs : List Char) :
    encode (c :: cs) = String.utf8EncodeChar c ++ encode cs := rfl

theorem encode_append (cs ds : List Char) : encode (cs ++ ds) = encode cs ++ encode ds :=
  List.flatMap_append

/-- A byte of an encoding after the first one. -/
def Continuation (ch : UInt8) : Prop := 128 ≤ ch ∧ ch < 192

instance (ch : UInt8) : Decidable (Continuation ch) := inferInstanceAs (Decidable (_ ∧ _))

/-- The lead bytes of the encodings of a size. -/
def Lead (size : Nat) (ch : UInt8) : Prop :=
  match size with
  | 1 => ch < 128
  | 2 => 192 ≤ ch ∧ ch < 224
  | 3 => 224 ≤ ch ∧ ch < 240
  | _ => 240 ≤ ch ∧ ch < 248

instance (size : Nat) (ch : UInt8) : Decidable (Lead size ch) := by
  unfold Lead
  split <;> infer_instance

/-- The lead bytes of the sizes, as numbers. -/
theorem lead_cases {size : Nat} {ch : UInt8} (h : Lead size ch) :
    size = 1 ∧ ch.toNat < 128 ∨ size = 2 ∧ 192 ≤ ch.toNat ∧ ch.toNat < 224 ∨
      size = 3 ∧ 224 ≤ ch.toNat ∧ ch.toNat < 240 ∨
      (size ≠ 1 ∧ size ≠ 2 ∧ size ≠ 3) ∧ 240 ≤ ch.toNat ∧ ch.toNat < 248 := by
  unfold Lead at h
  split at h <;> simp only [UInt8.le_iff_toNat_le, UInt8.lt_iff_toNat_lt, UInt8.reduceToNat] at h
  · exact .inl ⟨rfl, h⟩
  · exact .inr (.inl ⟨rfl, h⟩)
  · exact .inr (.inr (.inl ⟨rfl, h⟩))
  · next hone htwo hthree => exact .inr (.inr (.inr ⟨⟨hone, htwo, hthree⟩, h⟩))

theorem not_continuation_of_lead {size : Nat} {ch : UInt8} (h : Lead size ch) : ¬ Continuation ch := by
  rintro ⟨hlow, hhigh⟩
  simp only [UInt8.le_iff_toNat_le, UInt8.lt_iff_toNat_lt, UInt8.reduceToNat] at hlow hhigh
  have hcases := lead_cases h
  omega

/-- The lead byte of more than one byte is not ASCII. -/
theorem le_of_lead {size : Nat} (hsize : 1 < size) {ch : UInt8} (h : Lead size ch) : 128 ≤ ch := by
  simp only [UInt8.le_iff_toNat_le, UInt8.reduceToNat]
  have hcases := lead_cases h
  omega

theorem continuation_mask : ∀ ch : UInt8, Continuation (ch &&& 0x3f ||| 0x80) :=
  forall_byte (by decide +kernel)

/-- **The shape of an encoded character**: a lead byte for its size, and continuation bytes. -/
theorem encodeChar_shape (c : Char) :
    ∃ lead tail, String.utf8EncodeChar c = lead :: tail ∧ Lead c.utf8Size lead ∧
      tail.length + 1 = c.utf8Size ∧ ∀ ch ∈ tail, Continuation ch := by
  have htwo : ∀ ch : UInt8, Lead 2 (ch &&& 0x1f ||| 0xc0) := forall_byte (by decide +kernel)
  have hthree : ∀ ch : UInt8, Lead 3 (ch &&& 0x0f ||| 0xe0) := forall_byte (by decide +kernel)
  have hfour : ∀ ch : UInt8, Lead 4 (ch &&& 0x07 ||| 0xf0) := forall_byte (by decide +kernel)
  rcases c.utf8Size_eq with h | h | h | h
  · rw [h, String.utf8EncodeChar_eq_singleton h]
    refine ⟨_, [], rfl, ?_, rfl, fun ch hch => absurd hch List.not_mem_nil⟩
    have hval : c.val.toNat ≤ 127 := UInt32.le_iff_toNat_le.mp (Char.utf8Size_eq_one_iff.mp h)
    show c.val.toUInt8 < 128
    rw [UInt8.lt_iff_toNat_lt, UInt32.toNat_toUInt8]
    exact Nat.lt_of_le_of_lt (Nat.mod_le _ _) (Nat.lt_succ_of_le hval)
  · rw [h, String.utf8EncodeChar_eq_cons_cons h]
    exact ⟨_, _, rfl, htwo _, rfl, by simp only [List.mem_singleton, forall_eq, continuation_mask]⟩
  · rw [h, String.utf8EncodeChar_eq_cons_cons_cons h]
    refine ⟨_, _, rfl, hthree _, rfl, ?_⟩
    simp only [List.mem_cons, List.not_mem_nil, or_false, forall_eq_or_imp, forall_eq, continuation_mask, and_self]
  · rw [h, String.utf8EncodeChar_eq_cons_cons_cons_cons h]
    refine ⟨_, _, rfl, hfour _, rfl, ?_⟩
    simp only [List.mem_cons, List.not_mem_nil, or_false, forall_eq_or_imp, forall_eq, continuation_mask, and_self]

/-- An ASCII byte is the encoding of a character. -/
theorem encodeChar_ascii : ∀ ch : UInt8, ch < 128 →
    String.utf8EncodeChar (Char.ofNat ch.toNat) = [ch] ∧ (Char.ofNat ch.toNat).utf8Size = 1 :=
  forall_byte (by decide +kernel)

/-- A text of ASCII bytes is the encoding of as many characters. -/
theorem encode_ascii {s : Str} (h : ∀ ch ∈ s, ch < 128) :
    ∃ cs, encode cs = s ∧ ∀ c ∈ cs, c.utf8Size = 1 := by
  induction s with
  | nil => exact ⟨[], rfl, fun c hc => absurd hc List.not_mem_nil⟩
  | cons ch s ih =>
    obtain ⟨cs, rfl, hcs⟩ := ih fun ch' hch' => h ch' (List.mem_cons_of_mem _ hch')
    obtain ⟨hencode, hsize⟩ := encodeChar_ascii ch (h ch List.mem_cons_self)
    refine ⟨Char.ofNat ch.toNat :: cs, ?_, List.forall_mem_cons.mpr ⟨hsize, hcs⟩⟩
    rw [encode_cons, hencode, List.singleton_append]

/-- The encoding of a character of more than one byte has no ASCII byte. -/
theorem le_of_mem_encodeChar {c : Char} (hsize : c.utf8Size ≠ 1) {ch : UInt8}
    (hch : ch ∈ String.utf8EncodeChar c) : 128 ≤ ch := by
  have hlarge : 1 < c.utf8Size := Nat.lt_of_le_of_ne c.utf8Size_pos hsize.symm
  obtain ⟨lead, tail, hshape, hlead, -, htail⟩ := encodeChar_shape c
  rw [hshape] at hch
  rcases List.mem_cons.mp hch with rfl | hch
  · exact le_of_lead hlarge hlead
  · exact (htail ch hch).1

/-- Encoded characters are told apart by what they start with. -/
theorem encodeChar_append_inj {c d : Char} {s t : Str}
    (h : String.utf8EncodeChar c ++ s = String.utf8EncodeChar d ++ t) : c = d ∧ s = t := by
  have hbytes := congrArg (fun l : Str => ByteArray.utf8DecodeChar? l.toByteArray 0) h
  simp only [List.toByteArray_append, ByteArray.utf8DecodeChar?_utf8EncodeChar_append,
    Option.some.injEq] at hbytes
  subst hbytes
  exact ⟨rfl, List.append_cancel_left h⟩

theorem encodeChar_injective : Function.Injective String.utf8EncodeChar := by
  intro c d h
  exact (encodeChar_append_inj (congrArg (· ++ []) h)).1

/-- **A character stands on the boundaries of characters.** Where the encoding of a character occurs
in an encoded text, the text has the character there. -/
theorem encode_split {cs : List Char} {c : Char} {pre post : Str}
    (h : encode cs = pre ++ (String.utf8EncodeChar c ++ post)) :
    ∃ before after, cs = before ++ c :: after ∧ encode before = pre := by
  obtain ⟨lead, tail, hc, hlead, -, -⟩ := encodeChar_shape c
  induction cs generalizing pre with
  | nil =>
    rw [hc] at h
    simp at h
  | cons d cs ih =>
    rw [encode_cons] at h
    rcases List.append_eq_append_iff.mp h with ⟨rest, hpre, hrest⟩ | ⟨rest, hd, hrest⟩
    · -- the occurrence is behind the first character
      obtain ⟨before, after, rfl, hbefore⟩ := ih hrest
      exact ⟨d :: before, after, rfl, by rw [encode_cons, hbefore, hpre]⟩
    · cases pre with
      | nil =>
        -- the occurrence is the first character
        obtain ⟨rfl, -⟩ := encodeChar_append_inj (h.trans (List.nil_append _))
        exact ⟨[], cs, rfl, rfl⟩
      | cons b pre =>
        obtain ⟨lead', tail', hd', -, -, htail'⟩ := encodeChar_shape d
        rw [hd'] at hd
        obtain ⟨rfl, htail⟩ : lead' = b ∧ tail' = pre ++ rest := List.cons.inj hd
        cases rest with
        | nil =>
          -- the occurrence is right behind the first character
          obtain ⟨before, after, rfl, hbefore⟩ := ih (show encode cs = [] ++ _ from hrest.symm)
          refine ⟨d :: before, after, rfl, ?_⟩
          rw [encode_cons, hbefore, hd', htail, List.append_nil, List.append_nil]
        | cons b rest =>
          -- the occurrence would begin inside the first character
          exfalso
          rw [hc] at hrest
          obtain ⟨rfl, -⟩ := List.cons.inj hrest
          have hcontinuation : Continuation lead := by
            apply htail'
            rw [htail]
            exact List.mem_append_right _ List.mem_cons_self
          exact not_continuation_of_lead hlead hcontinuation

/-- Valid UTF-8 encodes one text. -/
theorem encode_injective {cs ds : List Char} (h : encode cs = encode ds) : cs = ds := by
  induction cs generalizing ds with
  | nil =>
    cases ds with
    | nil => rfl
    | cons d ds =>
      obtain ⟨lead, tail, hd, -⟩ := encodeChar_shape d
      rw [encode_cons, hd] at h
      cases h
  | cons c cs ih =>
    cases ds with
    | nil =>
      obtain ⟨lead, tail, hc, -⟩ := encodeChar_shape c
      rw [encode_cons, hc] at h
      cases h
    | cons d ds =>
      obtain ⟨rfl, hrest⟩ := encodeChar_append_inj h
      rw [ih hrest]

/-! ## Parts of a text -/

/-- A place between two characters of a text, or at its ends. -/
def Boundary (cs : List Char) (i : Nat) : Prop :=
  ∃ before after, cs = before ++ after ∧ (encode before).length = i

theorem boundary_length (cs : List Char) : Boundary cs (encode cs).length :=
  ⟨cs, [], (List.append_nil cs).symm, rfl⟩

theorem boundary_cons {c : Char} {cs : List Char} {i : Nat} :
    Boundary (c :: cs) i ↔ i = 0 ∨ c.utf8Size ≤ i ∧ Boundary cs (i - c.utf8Size) := by
  refine ⟨fun h => ?_, fun h => ?_⟩
  · obtain ⟨before, after, heq, rfl⟩ := h
    cases before with
    | nil => exact Or.inl rfl
    | cons b before =>
      obtain ⟨rfl, rfl⟩ := List.cons.inj heq
      refine Or.inr ⟨?_, before, after, rfl, ?_⟩
      · simp
      · simp
  · rcases h with rfl | ⟨hle, before, after, rfl, hlen⟩
    · exact ⟨[], c :: cs, rfl, rfl⟩
    · refine ⟨c :: before, after, rfl, ?_⟩
      simp only [encode_cons, List.length_append, String.length_utf8EncodeChar, hlen]
      omega

/-- Where the characters of a text begin. -/
def starts : List Char → List Nat
  | [] => []
  | c :: cs => 0 :: (starts cs).map (· + c.utf8Size)

@[simp] theorem length_starts (cs : List Char) : (starts cs).length = cs.length := by
  induction cs with
  | nil => rfl
  | cons c cs ih => simp [starts, ih]

/-- The boundaries of a text are where its characters begin, and its end. -/
theorem boundary_iff_starts {cs : List Char} {i : Nat} :
    Boundary cs i ↔ i ∈ starts cs ∨ i = (encode cs).length := by
  induction cs generalizing i with
  | nil =>
    refine ⟨fun h => ?_, fun h => ?_⟩
    · obtain ⟨before, after, heq, rfl⟩ := h
      obtain ⟨rfl, rfl⟩ := List.append_eq_nil_iff.mp heq.symm
      exact .inr rfl
    · rcases h with h | rfl
      · exact absurd h List.not_mem_nil
      · exact boundary_length []
  | cons c cs ih =>
    rw [boundary_cons, ih]
    simp only [starts, List.mem_cons, List.mem_map, encode_cons, List.length_append,
      String.length_utf8EncodeChar]
    constructor
    · rintro (rfl | ⟨hle, hstart | hend⟩)
      · exact .inl (.inl rfl)
      · exact .inl (.inr ⟨_, hstart, Nat.sub_add_cancel hle⟩)
      · exact .inr (by omega)
    · rintro ((rfl | ⟨j, hj, rfl⟩) | rfl)
      · exact .inl rfl
      · exact .inr ⟨Nat.le_add_left _ _, .inl (by rwa [Nat.add_sub_cancel])⟩
      · exact .inr ⟨Nat.le_add_right _ _, .inr (Nat.add_sub_cancel_left _ _)⟩

theorem starts_ordered (cs : List Char) : (starts cs).Pairwise (· < ·) := by
  induction cs with
  | nil => exact List.Pairwise.nil
  | cons c cs ih =>
    refine List.pairwise_cons.mpr ⟨fun i hi => ?_, List.pairwise_map.mpr (ih.imp fun h => ?_)⟩
    · obtain ⟨j, -, rfl⟩ := List.mem_map.mp hi
      exact Nat.add_pos_right j c.utf8Size_pos
    · exact Nat.add_lt_add_right h _

/-- The lead byte tells the size. -/
theorem lead_unique {ch : UInt8} {m n : Nat} (hm : 1 ≤ m ∧ m ≤ 4) (hn : 1 ≤ n ∧ n ≤ 4)
    (h : Lead m ch) (h' : Lead n ch) : m = n := by
  have hcases := lead_cases h
  have hcases' := lead_cases h'
  omega

/-- **Where a byte of a text is**: at an offset in the encoding of a character, whose lead byte stands
so far before it. -/
theorem char_at {cs : List Char} {i : Nat} (h : i < (encode cs).length) :
    ∃ size offset, 1 ≤ size ∧ size ≤ 4 ∧ offset < size ∧ offset ≤ i ∧
      i + size ≤ (encode cs).length + offset ∧ Lead size ((encode cs).getD (i - offset) 0) ∧
      (∀ j, 0 < j → j < size → Continuation ((encode cs).getD (i - offset + j) 0)) ∧
      (Boundary cs i ↔ offset = 0) := by
  induction cs generalizing i with
  | nil => exact absurd h (Nat.not_lt_zero i)
  | cons c cs ih =>
    obtain ⟨lead, tail, hc, hlead, hsize, htail⟩ := encodeChar_shape c
    have hlen : (String.utf8EncodeChar c).length = c.utf8Size := String.length_utf8EncodeChar c
    rw [encode_cons, List.length_append, hlen] at h
    by_cases hi : i < c.utf8Size
    · -- a byte of the first character
      refine ⟨c.utf8Size, i, c.utf8Size_pos, c.utf8Size_le_four, hi, Nat.le_refl i, ?_, ?_, ?_, ?_⟩
      · rw [encode_cons, List.length_append, hlen]
        omega
      · rw [Nat.sub_self, encode_cons, hc]
        exact hlead
      · intro j hpos hj
        obtain ⟨k, rfl⟩ := Nat.exists_eq_succ_of_ne_zero (Nat.ne_of_gt hpos)
        have hk : k < tail.length := by omega
        have hget : (encode (c :: cs)).getD (i - i + (k + 1)) 0 = tail[k] := by
          rw [Nat.sub_self, Nat.zero_add, encode_cons, List.getD_append _ _ _ _ (by omega), hc,
            List.getD_cons_succ, List.getD_eq_getElem _ _ hk]
        rw [hget]
        exact htail _ (List.getElem_mem hk)
      · rw [boundary_cons]
        exact or_iff_left fun hle => absurd hle.1 (Nat.not_le_of_lt hi)
    · -- a byte of the others
      obtain ⟨size, offset, hone, hfour, hoffset, hle, hend, hlead', htail', hboundary⟩ :=
        ih (i := i - c.utf8Size) (by omega)
      have hget : ∀ j, (encode (c :: cs)).getD (i - offset + j) 0 =
          (encode cs).getD (i - c.utf8Size - offset + j) 0 := by
        intro j
        rw [encode_cons, List.getD_append_right _ _ _ _ (by omega), hlen]
        congr 1
        omega
      refine ⟨size, offset, hone, hfour, hoffset, by omega, ?_, ?_, fun j hpos hj => ?_, ?_⟩
      · rw [encode_cons, List.length_append, hlen]
        omega
      · have hfirst := hget 0
        rw [Nat.add_zero, Nat.add_zero] at hfirst
        rw [hfirst]
        exact hlead'
      · rw [hget]
        exact htail' j hpos hj
      · rw [boundary_cons, ← hboundary]
        have hpos := c.utf8Size_pos
        refine ⟨fun h => ?_, fun h => Or.inr ⟨by omega, h⟩⟩
        rcases h with rfl | h
        · omega
        · exact h.2

/-- What begins with a text has a text behind it. -/
theorem encode_append_left {ds es : List Char} {rest : Str} (h : encode ds ++ rest = encode es) :
    ∃ fs, es = ds ++ fs ∧ rest = encode fs := by
  induction ds generalizing es with
  | nil => exact ⟨es, rfl, h⟩
  | cons d ds ih =>
    cases es with
    | nil =>
      obtain ⟨lead, tail, hd, -⟩ := encodeChar_shape d
      rw [encode_cons, hd] at h
      cases h
    | cons e es =>
      rw [encode_cons, encode_cons, List.append_assoc] at h
      obtain ⟨rfl, hrest⟩ := encodeChar_append_inj h
      obtain ⟨fs, rfl, hfs⟩ := ih hrest
      exact ⟨fs, rfl, hfs⟩

/-- A place is a boundary unless a continuation byte stands there. -/
theorem boundary_iff {cs : List Char} {i : Nat} (h : i < (encode cs).length) :
    Boundary cs i ↔ ¬ Continuation ((encode cs).getD i 0) := by
  obtain ⟨size, offset, hone, hfour, hoffset, hle, -, hlead, htail, hboundary⟩ := char_at h
  rw [hboundary]
  refine ⟨fun hzero => ?_, fun hcontinuation => ?_⟩
  · rw [hzero, Nat.sub_zero] at hlead
    exact not_continuation_of_lead hlead
  · by_contra hne
    have hmem := htail offset (Nat.pos_of_ne_zero hne) hoffset
    rw [Nat.sub_add_cancel hle] at hmem
    exact hcontinuation hmem

/-- **When a part of a text is a text.** -/
theorem slice_iff {cs : List Char} {i k : Nat} (hk : 0 < k) (h : i + k ≤ (encode cs).length) :
    (∃ ds, ((encode cs).drop i).take k = encode ds) ↔ Boundary cs i ∧ Boundary cs (i + k) := by
  refine ⟨fun hslice => ?_, fun hboundary => ?_⟩
  · obtain ⟨ds, hds⟩ := hslice
    have hfirst : Boundary cs i := by
      rw [boundary_iff (by omega)]
      cases ds with
      | nil =>
        have hzero := congrArg List.length hds
        simp only [List.length_take, List.length_drop, encode_nil, List.length_nil] at hzero
        omega
      | cons d ds =>
        obtain ⟨lead, tail, hd, hlead, -⟩ := encodeChar_shape d
        have hget : ((encode cs).drop i)[0]? = some lead := by
          rw [← List.getElem?_take_of_lt hk, hds, encode_cons, hd]
          rfl
        rw [List.getElem?_drop, Nat.add_zero] at hget
        rw [List.getD_eq_getElem?_getD, hget]
        exact not_continuation_of_lead hlead
    refine ⟨hfirst, ?_⟩
    obtain ⟨before, after, rfl, rfl⟩ := hfirst
    rw [encode_append, List.drop_left] at hds
    have hsplit := (congrArg (· ++ (encode after).drop k) hds).symm.trans (List.take_append_drop k _)
    obtain ⟨fs, rfl, -⟩ := encode_append_left hsplit
    refine ⟨before ++ ds, fs, (List.append_assoc _ _ _).symm, ?_⟩
    have hlen := congrArg List.length hds
    simp only [encode_append, List.length_append, List.length_take] at hlen h ⊢
    omega
  · obtain ⟨⟨before, after, rfl, rfl⟩, before', after', heq, hlen⟩ := hboundary
    rcases List.append_eq_append_iff.mp heq with ⟨ds, rfl, rfl⟩ | ⟨ds, rfl, rfl⟩
    · refine ⟨ds, ?_⟩
      have hds : (encode ds).length = k := by
        simpa [encode_append] using hlen
      rw [encode_append, List.drop_left, encode_append, ← hds, List.take_left]
    · simp only [encode_append, List.length_append] at hlen
      omega

/-! ## Bytes that are no text -/

/-- A byte string that encodes a text. -/
def Valid (s : Str) : Prop := ∃ cs, encode cs = s

theorem valid_nil : Valid [] := ⟨[], rfl⟩

theorem valid_lit (s : String) : Valid (lit s) := ⟨s.toList, rfl⟩

theorem Valid.append {s t : Str} (hs : Valid s) (ht : Valid t) : Valid (s ++ t) := by
  obtain ⟨cs, rfl⟩ := hs
  obtain ⟨ds, rfl⟩ := ht
  exact ⟨cs ++ ds, encode_append cs ds⟩

theorem valid_ascii {s : Str} (h : ∀ ch ∈ s, ch < 128) : Valid s := by
  obtain ⟨cs, hcs, -⟩ := encode_ascii h
  exact ⟨cs, hcs⟩

theorem Valid.cons {ch : UInt8} {s : Str} (hch : ch < 128) (hs : Valid s) : Valid (ch :: s) :=
  (valid_ascii (s := [ch]) (List.forall_mem_singleton.mpr hch)).append hs

/-- An ASCII byte of a text stands between two texts. -/
theorem Valid.split {ch : UInt8} {s t : Str} (hch : ch < 128) (h : Valid (s ++ ch :: t)) :
    Valid s ∧ Valid t := by
  obtain ⟨cs, hcs⟩ := h
  obtain ⟨hencode, -⟩ := encodeChar_ascii ch hch
  have hchar : encode cs = s ++ (String.utf8EncodeChar (Char.ofNat ch.toNat) ++ t) := by
    rw [hcs, hencode, List.singleton_append]
  obtain ⟨before, after, rfl, rfl⟩ := encode_split hchar
  rw [encode_append, encode_cons] at hchar
  exact ⟨⟨before, rfl⟩, after, List.append_cancel_left (List.append_cancel_left hchar)⟩

/-- The words of a text are texts. -/
theorem Valid.words {s : Str} (h : Valid s) : ∀ word ∈ words s, Valid word := by
  have hspace : ∀ ch : UInt8, isspace ch = true → ch < 128 := forall_byte (by decide +kernel)
  have hlast : ∀ word, Valid word → ∀ w ∈ wordsFrom word [], Valid w := by
    intro word hword w hw
    unfold wordsFrom at hw
    split at hw
    · exact absurd hw List.not_mem_nil
    · rwa [List.mem_singleton.mp hw]
  have hfrom : ∀ word, Valid (word ++ s) → ∀ w ∈ wordsFrom word s, Valid w := by
    clear h
    induction s with
    | nil =>
      intro word h
      rw [List.append_nil] at h
      exact hlast word h
    | cons ch s ih =>
      intro word h
      by_cases hch : isspace ch = true
      · obtain ⟨hword, hs⟩ := h.split (hspace ch hch)
        rw [wordsFrom_isspace hch]
        exact List.forall_mem_append.mpr ⟨hlast word hword, ih [] hs⟩
      · rw [wordsFrom_not_isspace hch]
        exact ih (word ++ [ch]) (by rwa [List.append_assoc, List.singleton_append])
  exact hfrom [] h

/-- The character at the front of a byte string. -/
def firstChar (s : Str) : Option Char := ByteArray.utf8DecodeChar? s.toByteArray 0

/-- The bytes that belong to characters, when `n` more bytes of a character are there to be kept. -/
def keepChars : Nat → Str → Str
  | _, [] => []
  | n + 1, ch :: s => ch :: keepChars n s
  | 0, ch :: s =>
    match firstChar (ch :: s) with
    | some c => ch :: keepChars (c.utf8Size - 1) s
    | none => keepChars 0 s

/-- The text without the bytes that belong to no character. -/
def ignore (s : Str) : Str := keepChars 0 s

theorem firstChar_encodeChar (c : Char) (s : Str) :
    firstChar (String.utf8EncodeChar c ++ s) = some c := by
  rw [firstChar, List.toByteArray_append, ByteArray.utf8DecodeChar?_utf8EncodeChar_append]

theorem exists_of_firstChar {s : Str} {c : Char} (h : firstChar s = some c) :
    ∃ t, s = String.utf8EncodeChar c ++ t := by
  obtain ⟨rest, hrest⟩ := ByteArray.exists_of_utf8DecodeChar?_eq_some h
  refine ⟨rest.data.toList, ?_⟩
  have hdata := congrArg (fun b : ByteArray => b.data.toList) hrest
  simpa using hdata

theorem keepChars_append (s t : Str) : keepChars s.length (s ++ t) = s ++ keepChars 0 t := by
  induction s with
  | nil => rfl
  | cons ch s ih => exact congrArg (ch :: ·) ih

/-- A character at the front is kept. -/
theorem ignore_encodeChar (c : Char) (s : Str) :
    ignore (String.utf8EncodeChar c ++ s) = String.utf8EncodeChar c ++ ignore s := by
  obtain ⟨lead, tail, hshape, -, hlen, -⟩ := encodeChar_shape c
  have hfirst := firstChar_encodeChar c s
  unfold ignore
  rw [hshape, List.cons_append] at hfirst ⊢
  rw [keepChars, hfirst]
  dsimp only
  rw [← hlen, Nat.add_sub_cancel, keepChars_append, List.cons_append]

/-- A text is kept as it is. -/
theorem ignore_encode (cs : List Char) : ignore (encode cs) = encode cs := by
  induction cs with
  | nil => rfl
  | cons c cs ih => rw [encode_cons, ignore_encodeChar, ih]

theorem Valid.ignore {s : Str} (h : Valid s) : ignore s = s := by
  obtain ⟨cs, rfl⟩ := h
  exact ignore_encode cs

/-- What is kept is a text. -/
theorem valid_ignore (s : Str) : Valid (ignore s) := by
  induction hlen : s.length using Nat.strong_induction_on generalizing s with
  | _ n ih =>
    subst hlen
    cases s with
    | nil => exact valid_nil
    | cons ch s =>
      cases hfirst : firstChar (ch :: s) with
      | some c =>
        obtain ⟨t, ht⟩ := exists_of_firstChar hfirst
        rw [ht, ignore_encodeChar]
        have hshort : t.length < (ch :: s).length := by
          rw [ht, List.length_append, String.length_utf8EncodeChar]
          exact Nat.lt_add_of_pos_left c.utf8Size_pos
        exact Valid.append ⟨[c], List.append_nil _⟩ (ih _ hshort t rfl)
      | none =>
        have hskip : Utf8.ignore (ch :: s) = Utf8.ignore s := by
          unfold Utf8.ignore
          rw [keepChars, hfirst]
        rw [hskip]
        exact ih _ (Nat.lt_succ_self _) s rfl

end Utf8
