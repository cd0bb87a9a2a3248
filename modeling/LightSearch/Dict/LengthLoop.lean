import LightSearch.Dict.EditDistance
import LightSearch.IndexGen.BuiltDictionary

/-!
# The loop of `length`

`length` goes from the first byte of a character behind the character, as far as the byte says, until it
stands exactly at the end of the string. Here the loop has its two variables, and reads on in the
memory when it has stepped over the end.

A string is `Announced` when it is one of pieces that are as long as their first bytes say. The loop ends
after at most as many times as there are bytes, and reads nothing behind the string, for these strings
and no others (`countsInside_iff`). They are the strings that `length` has a result for
(`whole_iff`), and the loop comes to that result (`atTest_of_length`).

The Chinese words of a dictionary are announced, because `buildCnDict` decodes them
(`Dictionary.announced_cn`). `buildEnDict` decodes nothing: its words are announced when the articles
are in UTF-8 (`Dictionary.announced_en`), and else they need not be (`latin1_counts_outside`).
-/

set_option autoImplicit false

namespace LightSearch

open Cxx HashMap Run

namespace EditDistance

/-! ## The loop with its variables -/

/-- The variables of the loop. Where `idx` would wrap around, it has been behind the string before. -/
structure LengthVars where
  idx : Nat
  ilen : Nat
  deriving DecidableEq

/-- `str[idx]`: a byte of the string, the NUL at its end, or what stands in the memory. -/
def byteAt (behind : Nat → UInt8) (str : Str) (idx : Nat) : UInt8 := (str ++ [0]).getD idx (behind idx)

/-- `idx != str.size()`. -/
def lengthTest (str : Str) (s : LengthVars) : Bool := s.idx ≠ str.length

/-- The body of the loop, with the `++idx` behind it. -/
def lengthBody (behind : Nat → UInt8) (str : Str) (s : LengthVars) : LengthVars :=
  let nBytes := nBytesCode (byteAt behind str s.idx)
  let idx := s.idx + (nBytes - 1)
  { idx := idx + 1, ilen := s.ilen + 1 }

/-- The variables before the loop. -/
def lengthStart : LengthVars := { idx := 0, ilen := 0 }

/-- The loop ends, after at most as many times as there are bytes, and does not evaluate a `str[idx]` for
an `idx` behind the end. -/
structure CountsInside (behind : Nat → UInt8) (str : Str) : Prop where
  ends : ∃ n, n ≤ str.length ∧
    ∃ s, atTest (lengthTest str) (lengthBody behind str) lengthStart n = some s ∧
      lengthTest str s = false
  inside : ∀ n s, atTest (lengthTest str) (lengthBody behind str) lengthStart n = some s →
    lengthTest str s = true → s.idx ≤ str.length

variable {behind : Nat → UInt8} {str : Str} {s s' : LengthVars}

theorem lengthTest_iff : lengthTest str s = true ↔ s.idx ≠ str.length := decide_eq_true_iff

theorem lengthTest_eq_false : lengthTest str s = false ↔ s.idx = str.length := by
  unfold lengthTest
  rw [decide_eq_false_iff_not, not_not]

theorem byteAt_of_getElem? {idx : Nat} {ch : UInt8} (h : str[idx]? = some ch) :
    byteAt behind str idx = ch := by
  unfold byteAt
  rw [List.getD_eq_getElem?_getD, List.getElem?_append_left (List.getElem?_eq_some_iff.mp h).1, h]
  rfl

/-- Inside the string the body goes behind the character. -/
theorem lengthBody_eq {idx ilen : Nat} {ch : UInt8} (h : str[idx]? = some ch) :
    lengthBody behind str ⟨idx, ilen⟩ = ⟨idx + nBytesCode ch, ilen + 1⟩ := by
  unfold lengthBody
  dsimp only
  rw [byteAt_of_getElem? h, Nat.add_assoc, Nat.sub_add_cancel (nBytesCode_pos ch)]

/-! ## Strings of announced characters -/

/-- A string of pieces, each as long as its first byte says. -/
inductive Announced : Str → Prop
  | nil : Announced []
  | char {ch : UInt8} {rest tail : Str} (hsize : rest.length + 1 = nBytesCode ch)
    (htail : Announced tail) : Announced (ch :: (rest ++ tail))

/-- The bytes that the first one announces are there, and behind them the same holds. -/
theorem announced_cons {ch : UInt8} {str : Str} :
    Announced (ch :: str) ↔
      nBytesCode ch ≤ str.length + 1 ∧ Announced (str.drop (nBytesCode ch - 1)) := by
  constructor
  · intro h
    generalize hwhole : ch :: str = whole at h
    cases h with
    | nil => cases hwhole
    | @char _ rest tail hsize htail =>
      obtain ⟨rfl, rfl⟩ := List.cons.inj hwhole
      have hrest : nBytesCode ch - 1 = rest.length := by omega
      rw [hrest, List.drop_left, List.length_append]
      exact ⟨by omega, htail⟩
  · rintro ⟨hsize, htail⟩
    have hpos := nBytesCode_pos ch
    rw [← List.take_append_drop (nBytesCode ch - 1) str]
    refine .char ?_ htail
    rw [List.length_take]
    omega

/-- The same from a place in the string on. -/
theorem announced_drop {idx : Nat} {ch : UInt8} (h : str[idx]? = some ch) :
    Announced (str.drop idx) ↔
      idx + nBytesCode ch ≤ str.length ∧ Announced (str.drop (idx + nBytesCode ch)) := by
  obtain ⟨hlt, rfl⟩ := List.getElem?_eq_some_iff.mp h
  have hpos := nBytesCode_pos str[idx]
  have hnext : idx + 1 + (nBytesCode str[idx] - 1) = idx + nBytesCode str[idx] := by omega
  rw [List.drop_eq_getElem_cons hlt, announced_cons, List.drop_drop, hnext, List.length_drop]
  apply and_congr_left'
  omega

/-- **The strings that have a length** are the strings of announced characters. -/
theorem whole_iff : Whole str ↔ Announced str := by
  constructor
  · rintro ⟨n, hlength⟩
    unfold length at hlength
    induction n generalizing str with
    | zero =>
      cases str with
      | nil => exact .nil
      | cons ch str =>
        obtain ⟨ilen, -, hsucc⟩ := Except.bind_eq_ok.mp hlength
        cases hsucc
    | succ n ih =>
      cases str with
      | nil => exact .nil
      | cons ch str =>
        obtain ⟨ilen, hrest, hsucc⟩ := Except.bind_eq_ok.mp hlength
        obtain rfl : ilen = n := Nat.succ.inj (Except.ok.inj hsucc)
        obtain ⟨hsize, htail⟩ := lengthFrom_eq_ok.mp hrest
        exact announced_cons.mpr ⟨Nat.le_add_of_sub_le hsize, ih htail⟩
  · intro h
    induction h with
    | nil => exact ⟨0, rfl⟩
    | @char ch rest tail hsize htail ih =>
      obtain ⟨n, hn⟩ := ih
      refine ⟨n + 1, ?_⟩
      have hskip : nBytesCode ch - 1 = rest.length := by omega
      unfold length at hn ⊢
      rw [lengthFrom, hskip, lengthFrom_skip, hn, Except.ok_bind]

instance (str : Str) : Decidable (Announced str) := decidable_of_iff (Whole str) whole_iff

/-! ## Where the loop goes -/

/-- The loop stands where an announced character begins, or at the end. -/
def Inside (str : Str) (s : LengthVars) : Prop := s.idx ≤ str.length ∧ Announced (str.drop s.idx)

/-- From there the loop goes on to the next such place, and so comes nearer to the end. -/
theorem Inside.body (h : Inside str s) (htest : lengthTest str s = true) :
    Inside str (lengthBody behind str s) ∧
      str.length - (lengthBody behind str s).idx < str.length - s.idx := by
  obtain ⟨idx, ilen⟩ := s
  obtain ⟨hle, hdrop⟩ := h
  have hlt : idx < str.length := Nat.lt_of_le_of_ne hle (lengthTest_iff.mp htest)
  have hget : str[idx]? = some str[idx] := List.getElem?_eq_getElem hlt
  have hpos := nBytesCode_pos str[idx]
  rw [lengthBody_eq hget]
  refine ⟨(announced_drop hget).mp hdrop, ?_⟩
  show str.length - (idx + nBytesCode str[idx]) < str.length - idx
  omega

theorem Announced.start (h : Announced str) : Inside str lengthStart := ⟨Nat.zero_le _, h⟩

/-- A loop that ends, and was inside the string each time before, went over announced characters. -/
theorem announced_of_ends {n : Nat}
    (hat : atTest (lengthTest str) (lengthBody behind str) s n = some s')
    (hend : lengthTest str s' = false) (hle : s.idx ≤ str.length)
    (hinside : ∀ m s₁, atTest (lengthTest str) (lengthBody behind str) s m = some s₁ →
      lengthTest str s₁ = true → s₁.idx ≤ str.length) :
    Announced (str.drop s.idx) := by
  induction n generalizing s with
  | zero =>
    obtain rfl := Option.some.inj hat
    rw [lengthTest_eq_false.mp hend, List.drop_length]
    exact .nil
  | succ n ih =>
    obtain ⟨idx, ilen⟩ := s
    unfold atTest at hat
    split at hat
    · next htest =>
      have hlt : idx < str.length := Nat.lt_of_le_of_ne hle (lengthTest_iff.mp htest)
      have hget : str[idx]? = some str[idx] := List.getElem?_eq_getElem hlt
      rw [lengthBody_eq hget] at hat
      have hlater : ∀ m s₁, atTest (lengthTest str) (lengthBody behind str)
          ⟨idx + nBytesCode str[idx], ilen + 1⟩ m = some s₁ → lengthTest str s₁ = true →
          s₁.idx ≤ str.length := by
        intro m s₁ hs₁
        refine hinside (m + 1) s₁ ?_
        rw [atTest, if_pos htest, lengthBody_eq hget, hs₁]
      have hnext : idx + nBytesCode str[idx] ≤ str.length := by
        cases hgoes : lengthTest str ⟨idx + nBytesCode str[idx], ilen + 1⟩ with
        | true => exact hlater 0 _ rfl hgoes
        | false => exact Nat.le_of_eq (lengthTest_eq_false.mp hgoes)
      exact (announced_drop hget).mpr ⟨hnext, ih hat hnext hlater⟩
    · cases hat

/-- **Where `length` stays inside**: whatever stands in the memory behind the string, the loop ends after
at most as many times as there are bytes, and reads nothing behind the string, just when each first byte
announces a character that is there. -/
theorem countsInside_iff (behind : Nat → UInt8) (str : Str) :
    CountsInside behind str ↔ Announced str := by
  constructor
  · rintro ⟨⟨n, -, s, hat, hend⟩, hinside⟩
    exact announced_of_ends hat hend (Nat.zero_le _) hinside
  · intro h
    constructor
    · exact atTest_exits (Inside str) (fun s => str.length - s.idx)
        (fun s hs htest => (hs.body htest).1) (fun s hs htest => (hs.body htest).2) h.start
    · intro n s hat _
      exact (atTest_keeps (Inside str) (fun s hs htest => (hs.body htest).1) h.start hat).1

/-- **A word that is counted behind its end**: an article in Latin-1 with the word `café`. The word is in
the dictionary, and the query for one of its letters finds it. Its last byte announces three. -/
theorem latin1_counts_outside :
    (Dictionary.ofWords [lit "caf" ++ [0xE9]]).en.Joins (lit "c") (lit "caf" ++ [0xE9]) 1 ∧
      ∀ behind, ¬ CountsInside behind (lit "caf" ++ [0xE9]) := by
  constructor
  · refine (Dictionary.joins_ofWords ?_ ?_).mpr ⟨List.mem_cons_self, ?_, ?_⟩
    · decide
    · decide
    · decide
    · exact ⟨99, List.mem_cons_self, rfl⟩
  · rintro behind ⟨⟨n, -, s, hat, hend⟩, hinside⟩
    have hannounced := announced_of_ends hat hend (Nat.zero_le _) hinside
    exact absurd hannounced (by decide)

/-- A character is counted, and the others behind it. -/
theorem lengthFrom_drop {idx n : Nat} {ch : UInt8} (hget : str[idx]? = some ch)
    (h : lengthFrom 0 (str.drop idx) = .ok n) :
    ∃ k, n = k + 1 ∧ idx + nBytesCode ch ≤ str.length ∧
      lengthFrom 0 (str.drop (idx + nBytesCode ch)) = .ok k := by
  obtain ⟨hlt, rfl⟩ := List.getElem?_eq_some_iff.mp hget
  have hpos := nBytesCode_pos str[idx]
  have hnext : idx + 1 + (nBytesCode str[idx] - 1) = idx + nBytesCode str[idx] := by omega
  rw [List.drop_eq_getElem_cons hlt, lengthFrom] at h
  obtain ⟨k, hrest, hsucc⟩ := Except.bind_eq_ok.mp h
  obtain ⟨hsize, htail⟩ := lengthFrom_eq_ok.mp hrest
  rw [List.drop_drop, hnext] at htail
  rw [List.length_drop] at hsize
  exact ⟨k, (Except.ok.inj hsucc).symm, by omega, htail⟩

theorem atTest_of_lengthFrom {idx n : Nat} (hle : idx ≤ str.length)
    (h : lengthFrom 0 (str.drop idx) = .ok n) (ilen : Nat) :
    atTest (lengthTest str) (lengthBody behind str) ⟨idx, ilen⟩ n = some ⟨str.length, ilen + n⟩ := by
  induction n generalizing idx ilen with
  | zero =>
    rcases Nat.lt_or_eq_of_le hle with hlt | rfl
    · obtain ⟨k, hk, -⟩ := lengthFrom_drop (List.getElem?_eq_getElem hlt) h
      cases hk
    · rfl
  | succ n ih =>
    rcases Nat.lt_or_eq_of_le hle with hlt | rfl
    · have hget : str[idx]? = some str[idx] := List.getElem?_eq_getElem hlt
      obtain ⟨k, hk, hnext, hrest⟩ := lengthFrom_drop hget h
      obtain rfl := Nat.succ.inj hk
      rw [atTest, if_pos (lengthTest_iff.mpr (Nat.ne_of_lt hlt)), lengthBody_eq hget,
        ih hnext hrest (ilen + 1), Nat.add_right_comm, Nat.add_assoc]
    · rw [List.drop_length] at h
      cases h

/-- **What `length` returns** is what the loop has counted when it ends. -/
theorem atTest_of_length {n : Nat} (h : length str = .ok n) :
    atTest (lengthTest str) (lengthBody behind str) lengthStart n = some ⟨str.length, n⟩ := by
  refine (atTest_of_lengthFrom (Nat.zero_le _) h 0).trans ?_
  rw [Nat.zero_add]

theorem announced_of_valid (h : Utf8.Valid str) : Announced str := by
  obtain ⟨cs, rfl⟩ := h
  exact whole_iff.mp (whole_encode cs)

/-- What a byte announces does not change when the letters are lower-cased. -/
theorem Announced.toLower (h : Announced str) : Announced (toLower str) := by
  have hbyte : ∀ ch : UInt8, nBytesCode (if isupper ch then tolower ch else ch) = nBytesCode ch :=
    forall_byte (by decide +kernel)
  induction h with
  | nil => exact .nil
  | @char ch rest tail hsize htail ih =>
    unfold LightSearch.toLower at ih ⊢
    rw [List.map_cons, List.map_append]
    refine .char ?_ ih
    rw [List.length_map, hsize, hbyte]

end EditDistance

/-! ## The words of the dictionaries -/

namespace Dictionary

open EditDistance

theorem mem_inserts {inserts : List (Str × Nat)} {row : DictRow} (h : row ∈ autoIncrement inserts) :
    (row.word, row.frequency) ∈ inserts :=
  List.fst_mem_of_mem_zipIdx (mem_autoIncrement.mp h)

/-- A word of the English table is one that some token becomes. -/
theorem becomes_of_mem_en (d : Dictionary) {row : DictRow} (hrow : row ∈ d.en.dict) :
    ∃ token ∈ tokensRead d.filesen, Becomes token row.word := by
  let m := DicProducer.init d.filesen d.filescn d.stopEn d.stopCn
  have hmem : (row.word, row.frequency) ∈ (m.buildEnDict d.order).2 := mem_inserts hrow
  have hinserted : (row.word, row.frequency) ∈ inOrder d.order (m.buildEnDict d.order).1.dicten := by
    unfold DicProducer.buildEnDict at hmem ⊢
    dsimp only at hmem ⊢
    split at hmem
    · exact hmem
    · cases hmem
  obtain ⟨hcount, hpos⟩ := (lookup_buildEnDict d.order rfl).mp (mem_inOrder.mp hinserted)
  rw [hcount] at hpos
  obtain ⟨token, htoken, hcounted⟩ := List.countP_pos_iff.mp hpos
  exact ⟨token, htoken, (countedWord_eq_some.mp (beq_iff_eq.mp hcounted)).1⟩

/-- **The English words of articles in UTF-8 are announced.** -/
theorem announced_en (d : Dictionary)
    (hvalid : ∀ contents ∈ articlesRead d.filesen, Utf8.Valid contents) :
    ∀ row ∈ d.en.dict, Announced row.word := by
  have hascii : ∀ ch : UInt8, ispunct ch = true → ch < 128 := forall_byte (by decide +kernel)
  intro row hrow
  obtain ⟨token, htoken, stem, hstem, hword⟩ := d.becomes_of_mem_en hrow
  obtain ⟨contents, hcontents, hmem⟩ := List.mem_flatMap.mp htoken
  have htext := (hvalid contents hcontents).words token hmem
  rw [← hword]
  apply Announced.toLower
  apply announced_of_valid
  rcases hstem with rfl | ⟨mark, hmark, rfl⟩
  · exact htext
  · exact (htext.split (hascii mark hmark)).1

/-- **The Chinese words are announced.** -/
theorem announced_cn (d : Dictionary) : ∀ row ∈ d.cn.dict, Announced row.word := by
  intro row hrow
  have hmem : (row.word, row.frequency) ∈ d.inserts := mem_inserts hrow
  obtain ⟨⟨dictcn, good⟩, hcount, hbuilt⟩ := Except.bind_eq_ok.mp d.built
  have hwords : ∀ word ∈ dictcn, IsWord word :=
    isWord_of_countChinese (fun word hword => absurd hword Std.TreeMap.not_mem_emptyc) hcount
  dsimp only at hbuilt
  split at hbuilt
  · obtain ⟨-, hinserts⟩ := Prod.mk.inj (Except.ok.inj hbuilt)
    rw [← hinserts] at hmem
    have hget : dictcn[row.word]? = some row.frequency :=
      Std.TreeMap.mem_toList_iff_getElem?_eq_some.mp hmem
    obtain ⟨cs, hcs, -⟩ := hwords row.word (Std.TreeMap.mem_iff_isSome_getElem?.mpr (hget ▸ rfl))
    exact announced_of_valid ⟨cs, hcs.symm⟩
  · obtain ⟨-, hinserts⟩ := Prod.mk.inj (Except.ok.inj hbuilt)
    rw [← hinserts] at hmem
    cases hmem

end Dictionary

end LightSearch
