import Mathlib.Data.List.Count
import LightSearch.IndexGen.CnIndex

/-!
# The candidates of a Chinese query

The query is cut into the characters of UTF-8, and a word is a candidate when one of them is one of
its pieces of three bytes. Both cuts agree on a word of ideographs, which have three bytes each. A
word may have ASCII letters and digits too, and each of these moves the pieces by one byte: an
ideograph is a piece of its word when the number of ASCII characters before it is a multiple of three,
and an ASCII character never is a piece (`encodeChar_piece`).

So candidates are missed just when a word has common characters with the query and none of them is
such an ideograph (`candidatesExact_iff`).
-/

set_option autoImplicit false

namespace LightSearch

open Cxx

/-! ## Pieces and characters -/

/-- The length of a word in bytes, but for multiples of three, is the number of its ASCII characters. -/
theorem dvd_length_encode {cs : List Char} (h : ∀ ch ∈ cs, isWordChar ch = true) :
    3 ∣ (Utf8.encode cs).length ↔ 3 ∣ cs.countP isAscii := by
  have hlen : ∃ n, (Utf8.encode cs).length = cs.countP isAscii + 3 * n := by
    induction cs with
    | nil => exact ⟨0, rfl⟩
    | cons c cs ih =>
      obtain ⟨n, hn⟩ := ih fun ch hch => h ch (List.mem_cons_of_mem _ hch)
      rw [Utf8.encode_cons, List.length_append, String.length_utf8EncodeChar, hn]
      by_cases hascii : isAscii c = true
      · refine ⟨n, ?_⟩
        rw [utf8Size_eq_one_iff.mpr hascii, List.countP_cons_of_pos hascii]
        omega
      · have hideograph := isIdeograph_of_not_isAscii (h c List.mem_cons_self) hascii
        refine ⟨n + 1, ?_⟩
        rw [utf8Size_eq_three_of_isIdeograph hideograph, List.countP_cons_of_neg hascii]
        omega
  obtain ⟨n, hn⟩ := hlen
  rw [hn]
  omega

/-- **The characters that are pieces of their word**: the ideographs with a multiple of three ASCII
characters before them. -/
theorem encodeChar_piece {cs : List Char} (h : ∀ ch ∈ cs, isWordChar ch = true) {c : Char} :
    String.utf8EncodeChar c ∈ threeBytes (Utf8.encode cs) ↔
      ∃ before after, cs = before ++ c :: after ∧ isIdeograph c = true ∧
        3 ∣ before.countP isAscii := by
  rw [mem_threeBytes, String.length_utf8EncodeChar]
  constructor
  · rintro ⟨hsize, pre, post, heq, hdvd⟩
    obtain ⟨before, after, rfl, rfl⟩ := Utf8.encode_split heq
    have hbefore : ∀ ch ∈ before, isWordChar ch = true :=
      fun ch hch => h ch (List.mem_append_left _ hch)
    have hword : isWordChar c = true := h c (List.mem_append_right _ List.mem_cons_self)
    have hideograph : isIdeograph c = true := by
      apply isIdeograph_of_not_isAscii hword
      intro hascii
      rw [utf8Size_eq_one_iff.mpr hascii] at hsize
      cases hsize
    exact ⟨before, after, rfl, hideograph, (dvd_length_encode hbefore).mp hdvd⟩
  · rintro ⟨before, after, rfl, hideograph, hdvd⟩
    have hbefore : ∀ ch ∈ before, isWordChar ch = true :=
      fun ch hch => h ch (List.mem_append_left _ hch)
    exact ⟨utf8Size_eq_three_of_isIdeograph hideograph, Utf8.encode before, Utf8.encode after,
      Utf8.encode_append before (c :: after), (dvd_length_encode hbefore).mpr hdvd⟩

/-! ## Candidates -/

/-- A word and a text have a common character. -/
def Shares (query : List Char) (word : Str) : Prop :=
  ∃ cs, word = Utf8.encode cs ∧ ∃ c ∈ cs, c ∈ query

/-- A text has an ideograph of a word with a multiple of three ASCII characters before it. -/
def Aligned (query cs : List Char) : Prop :=
  ∃ before c after, cs = before ++ c :: after ∧ c ∈ query ∧ isIdeograph c = true ∧
    3 ∣ before.countP isAscii

/-- The candidates of a query are the words that have a common character with it, with their
frequencies. -/
def CandidatesExact (dictcn : Std.TreeMap Str Nat) (query : List Char) : Prop :=
  ∃ queryRes, chQueryRes (cnTables dictcn) (Utf8.encode query) = .ok queryRes ∧
    ∀ word n, (word, n) ∈ queryRes ↔
      ∃ frequency, dictcn[word]? = some frequency ∧ n = (frequency : Int) ∧ Shares query word

/-- The bytes of a query that has candidates can stand between quotes. -/
theorem quotable_of_chQueryRes {tables : DictTables} {query : List Char} {queryRes : QueryRes}
    (h : chQueryRes tables (Utf8.encode query) = .ok queryRes) :
    ∀ ch ∈ Utf8.encode query, Quotable ch := by
  have hfail : ∀ queryRes ch, ¬ Quotable ch →
      gatherOne cnSelect tables queryRes [ch] = .error .nullPointer := fun queryRes _ =>
    gatherOne_not_quotable tables cnSelect_wellFormed queryRes
  exact quotable_of_cutLookups hfail h

/-- **The candidates of a query** are the words with an aligned ideograph of it. -/
theorem chQueryRes_ok {dictcn : Std.TreeMap Str Nat} (hwords : ∀ word ∈ dictcn, IsWord word)
    {query : List Char} (hquery : ∀ ch ∈ Utf8.encode query, Quotable ch) :
    ∃ queryRes, chQueryRes (cnTables dictcn) (Utf8.encode query) = .ok queryRes ∧
      ∀ word n, (word, n) ∈ queryRes ↔
        ∃ frequency, dictcn[word]? = some frequency ∧ n = (frequency : Int) ∧
          ∃ cs, word = Utf8.encode cs ∧ Aligned query cs := by
  obtain ⟨singleChars, hcut, hchars⟩ := cutString_encode query
  have hquotable : ∀ str ∈ singleChars, ∀ ch ∈ str, Quotable ch := by
    intro str hstr ch hch
    obtain ⟨c, hc, rfl⟩ := (hchars str).mp hstr
    exact hquery ch (List.mem_flatMap.mpr ⟨c, hc, hch⟩)
  obtain ⟨queryRes, hrun, hmem⟩ := gather_ok (cnTables dictcn) cnSelect_wellFormed
    hquotable
  refine ⟨queryRes, ?_, fun word n => ?_⟩
  · unfold chQueryRes
    rw [hcut, Except.ok_bind, hrun]
  · rw [hmem]
    simp only [joins_cnTables, hchars]
    constructor
    · rintro ⟨str, ⟨c, hc, rfl⟩, frequency, ⟨hfrequency, hpiece⟩, rfl⟩
      have hword : word ∈ dictcn := Std.TreeMap.mem_iff_isSome_getElem?.mpr (hfrequency ▸ rfl)
      obtain ⟨cs, rfl, hcs⟩ := hwords word hword
      obtain ⟨before, after, rfl, hideograph, hdvd⟩ := (encodeChar_piece hcs).mp hpiece
      exact ⟨frequency, hfrequency, rfl, _, rfl, before, c, after, rfl, hc, hideograph, hdvd⟩
    · rintro ⟨frequency, hfrequency, rfl, cs, rfl, before, c, after, rfl, hc, hideograph, hdvd⟩
      have hword : Utf8.encode (before ++ c :: after) ∈ dictcn :=
        Std.TreeMap.mem_iff_isSome_getElem?.mpr (hfrequency ▸ rfl)
      obtain ⟨cs, heq, hcs⟩ := hwords _ hword
      obtain rfl := Utf8.encode_injective heq
      exact ⟨_, ⟨c, hc, rfl⟩, frequency,
        ⟨hfrequency, (encodeChar_piece hcs).mpr ⟨before, after, rfl, hideograph, hdvd⟩⟩, rfl⟩

theorem Aligned.shares {query cs : List Char} (h : Aligned query cs) :
    Shares query (Utf8.encode cs) := by
  obtain ⟨before, c, after, rfl, hc, -, -⟩ := h
  exact ⟨_, rfl, c, List.mem_append_right _ List.mem_cons_self, hc⟩

/-- **When the candidates are exact.** Over dictionary words, the candidates of a query are the words
that have a common character with it just when the query has no NUL, no quote and no backslash, and
each word that has a common character with it has an aligned ideograph of it. -/
theorem candidatesExact_iff {dictcn : Std.TreeMap Str Nat} (hwords : ∀ word ∈ dictcn, IsWord word)
    (query : List Char) :
    CandidatesExact dictcn query ↔
      (∀ ch ∈ Utf8.encode query, Quotable ch) ∧
        ∀ cs, Utf8.encode cs ∈ dictcn → (∃ c ∈ cs, c ∈ query) → Aligned query cs := by
  constructor
  · rintro ⟨queryRes, hrun, hexact⟩
    have hquery := quotable_of_chQueryRes hrun
    refine ⟨hquery, fun cs hcs hshares => ?_⟩
    obtain ⟨queryRes', hrun', hmem⟩ := chQueryRes_ok hwords hquery
    obtain rfl := Except.ok.inj (hrun.symm.trans hrun')
    -- the word is a candidate, so it has an aligned ideograph
    obtain ⟨frequency, hfrequency⟩ :=
      Option.isSome_iff_exists.mp (Std.TreeMap.mem_iff_isSome_getElem?.mp hcs)
    have hcandidate : (Utf8.encode cs, (frequency : Int)) ∈ queryRes :=
      (hexact _ _).mpr ⟨frequency, hfrequency, rfl, cs, rfl, hshares⟩
    obtain ⟨-, -, -, cs', heq, haligned⟩ := (hmem _ _).mp hcandidate
    rwa [Utf8.encode_injective heq]
  · rintro ⟨hquery, haligned⟩
    obtain ⟨queryRes, hrun, hmem⟩ := chQueryRes_ok hwords hquery
    refine ⟨queryRes, hrun, fun word n => ?_⟩
    rw [hmem]
    constructor
    · rintro ⟨frequency, hfrequency, rfl, cs, rfl, hcs⟩
      exact ⟨frequency, hfrequency, rfl, hcs.shares⟩
    · rintro ⟨frequency, hfrequency, rfl, cs, rfl, hshares⟩
      have hword : Utf8.encode cs ∈ dictcn :=
        Std.TreeMap.mem_iff_isSome_getElem?.mpr (hfrequency ▸ rfl)
      exact ⟨frequency, hfrequency, rfl, cs, rfl, haligned cs hword hshares⟩

/-- Two words, and a query with a blank. -/
theorem candidatesExact_iff_two :
    let dictcn : Std.TreeMap Str Nat :=
      (Std.TreeMap.insert ∅ (Utf8.encode "股市".toList) 2).insert (Utf8.encode "A股".toList) 1
    let query := "股 市".toList
    (∀ word ∈ dictcn, IsWord word) ∧
      (CandidatesExact dictcn query ↔
        (∀ ch ∈ Utf8.encode query, Quotable ch) ∧
          ∀ cs, Utf8.encode cs ∈ dictcn → (∃ c ∈ cs, c ∈ query) → Aligned query cs) := by
  intro dictcn query
  have hwords : ∀ word ∈ dictcn, IsWord word := by
    intro word hword
    rw [Std.TreeMap.mem_insert, Std.TreeMap.mem_insert] at hword
    simp only [Std.LawfulEqCmp.compare_eq_iff_eq] at hword
    rcases hword with rfl | rfl | hempty
    · exact ⟨"A股".toList, rfl, List.all_eq_true.mp (by decide)⟩
    · exact ⟨"股市".toList, rfl, List.all_eq_true.mp (by decide)⟩
    · exact absurd hempty Std.TreeMap.not_mem_emptyc
  exact ⟨hwords, candidatesExact_iff hwords query⟩

/-- A letter before the ideograph of the query: the word is no candidate. -/
theorem not_candidatesExact_letter :
    let dictcn : Std.TreeMap Str Nat := Std.TreeMap.insert ∅ (Utf8.encode "A股".toList) 1
    (∀ word ∈ dictcn, IsWord word) ∧ ¬ CandidatesExact dictcn "股".toList := by
  intro dictcn
  have hwords : ∀ word ∈ dictcn, IsWord word := by
    intro word hword
    rw [Std.TreeMap.mem_insert, Std.LawfulEqCmp.compare_eq_iff_eq] at hword
    rcases hword with rfl | hempty
    · exact ⟨"A股".toList, rfl, List.all_eq_true.mp (by decide)⟩
    · exact absurd hempty Std.TreeMap.not_mem_emptyc
  refine ⟨hwords, ?_⟩
  rintro ⟨queryRes, hrun, hexact⟩
  have hquery : ∀ ch ∈ Utf8.encode "股".toList, Quotable ch := by
    intro ch hch
    have hhigh : (Utf8.encode "股".toList).all (fun ch => 128 ≤ ch) = true := by decide
    exact quotable_of_not_ascii (of_decide_eq_true (List.all_eq_true.mp hhigh ch hch))
  obtain ⟨queryRes', hrun', hmem⟩ := chQueryRes_ok hwords hquery
  obtain rfl := Except.ok.inj (hrun.symm.trans hrun')
  have hfrequency : dictcn[Utf8.encode "A股".toList]? = some 1 := Std.TreeMap.getElem?_insert_self
  have hcandidate : (Utf8.encode "A股".toList, (1 : Int)) ∈ queryRes :=
    (hexact _ _).mpr ⟨1, hfrequency, rfl, "A股".toList, rfl, '股', by decide, by decide⟩
  obtain ⟨-, -, -, cs, heq, before, c, after, hcs, -, hideograph, hdvd⟩ := (hmem _ _).mp hcandidate
  rw [← Utf8.encode_injective heq] at hcs
  match before with
  | [] =>
    -- the letter is no ideograph
    obtain ⟨rfl, -⟩ := List.cons.inj hcs
    exact absurd hideograph (by decide)
  | [x] =>
    -- before the ideograph there is one letter
    obtain ⟨rfl, -⟩ := List.cons.inj hcs
    exact absurd hdvd (by decide)
  | x :: y :: before =>
    have hlen := congrArg List.length hcs
    simp at hlen

end LightSearch
