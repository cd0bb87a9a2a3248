import LightSearch.Cppjieba.FullSegment
import LightSearch.PageLib.InvertLib

/-!
# The tokens of a text

`JiebaTool` cuts with `CutAll`. A token of several characters is a word of the dictionary, so for a text in
UTF-8 the tokens of several characters are exactly the words that occur in the text, as long as no
separator is in them (`mem_tokens_encode`). In a text that is itself a word there are no other tokens
(`tokens_of_word`).

When no word of the dictionary has a quote, a backslash or a null character, such a character is a token
of its own (`symbols_alone_encode`).
-/

set_option autoImplicit false

namespace LightSearch

open Cxx Cppjieba

variable {W : Type} [Zero W]

/-- `JiebaTool::cut`. -/
def JiebaTool.cut (dict : DictTrie W) (target : Str) : Except Fault (List Str) :=
  FullSegment.cut dict target

namespace JiebaTool

/-- What `cut` returns: it always returns something (`cut_eq`). -/
def tokens (dict : DictTrie W) (target : Str) : List Str := (JiebaTool.cut dict target).toOption.getD []

end JiebaTool

/-! ## The words of the dictionary -/

section Words

omit [Zero W]

/-- A word that can be found. -/
def Cppjieba.DictTrie.Knows (dict : DictTrie W) (key : List Rune) : Prop :=
  0 < key.length ∧ key.length ≤ maxWordLength ∧ (dict.root.find? key).isSome = true

instance (dict : DictTrie W) (key : List Rune) : Decidable (dict.Knows key) :=
  inferInstanceAs (Decidable (_ ∧ _ ∧ _))

variable {dict : DictTrie W} {keys : List Rune} {wr : WordRange}

theorem isWord_iff : dict.IsWord keys wr ↔
    wr.left ≤ wr.right ∧ wr.right < keys.length ∧ dict.Knows (wr.slice keys) := by
  have hmax : 1 ≤ maxWordLength := by decide
  unfold DictTrie.IsWord DictTrie.Knows
  rw [Option.isSome_iff_exists]
  constructor
  · rintro ⟨unit, hunit⟩
    obtain ⟨hlt, hlen, hfind⟩ := wordAt_eq_some.mp hunit
    have hlength := Span.length_slice hlt
    exact ⟨by omega, hlt, by omega, by omega, by rw [hfind]; rfl⟩
  · rintro ⟨hle, hlt, -, hlen, hfind⟩
    have hlength := Span.length_slice hlt
    obtain ⟨unit, hunit⟩ := Option.isSome_iff_exists.mp hfind
    exact ⟨unit, wordAt_eq_some.mpr ⟨hlt, by omega, hunit⟩⟩

theorem isWord_shift {k : Nat} : dict.IsWord keys (wr.shift k) ↔ dict.IsWord (keys.drop k) wr := by
  rw [isWord_iff, isWord_iff, Span.slice_shift, List.length_drop]
  unfold Span.shift
  dsimp only
  constructor
  · exact fun ⟨hle, hlt, hknows⟩ => ⟨by omega, by omega, hknows⟩
  · exact fun ⟨hle, hlt, hknows⟩ => ⟨by omega, by omega, hknows⟩

theorem isWord_take {n : Nat} (hlt : wr.right < n) :
    dict.IsWord (keys.take n) wr ↔ dict.IsWord keys wr := by
  rw [isWord_iff, isWord_iff, Span.slice_take hlt, List.length_take, lt_min_iff]
  simp [hlt]

end Words

/-! ## The words of a sentence -/

section Ranges

variable {dict : DictTrie W} {runes : List RuneStr} {i j : Nat}

omit [Zero W] in
/-- A range of the filter has the words of the sentence that lie in it. -/
theorem isWord_of {range : Range} {wr : WordRange} (hright : wr.right < range.last - range.first) :
    dict.IsWord ((range.of runes).map RuneStr.rune) wr ↔
      dict.IsWord (runes.map RuneStr.rune) (wr.shift range.first) := by
  rw [isWord_shift, Range.of, List.map_take, List.map_drop, isWord_take hright]

theorem slice_of {range : Range} {wr : WordRange} (hright : wr.right < range.last - range.first) :
    Span.slice (range.of runes) wr = Span.slice runes (wr.shift range.first) := by
  rw [Range.of, Span.slice_take hright, Span.slice_shift]

/-- A stretch without separators lies in one range. -/
theorem exists_range_of_clean (hlt : i < j) (hbound : j < runes.length)
    (hclean : ∀ r ∈ Span.slice runes ⟨i, j⟩, r.rune ∉ symbols) :
    ∃ range ∈ ranges symbols runes, range.first ≤ i ∧ j < range.last := by
  have hsymbol : ∀ p, i ≤ p → p ≤ j → ∀ r ∈ runes[p]?, r.rune ∉ symbols := by
    intro p hip hpj r hr
    apply hclean
    apply List.mem_of_getElem? (i := p - i)
    unfold Span.slice
    rw [List.getElem?_take_of_lt (by dsimp only; omega), List.getElem?_drop]
    dsimp only
    rwa [Nat.add_sub_cancel' hip]
  obtain ⟨htiles, hall⟩ := ranges_tile symbols runes
  obtain ⟨s, hs, hhas⟩ := htiles.covers (Nat.zero_le i) (hlt.trans hbound)
  obtain ⟨range, hmem, rfl⟩ := List.mem_map.mp hs
  have hrange := hall range hmem
  obtain ⟨hfirst, hlast⟩ := hhas
  dsimp only [Range.span] at hfirst hlast
  refine ⟨range, hmem, hfirst, ?_⟩
  -- a range that ends before would end in front of a separator, or be one
  by_contra hend
  rcases hrange.clean with ⟨hone, r, hr, hsep⟩ | ⟨-, hstop⟩
  · have hsame : range.first = i := by omega
    exact hsymbol i (Nat.le_refl i) hlt.le r (hsame ▸ hr) hsep
  · have hpos := hrange.lt
    have hget := List.getElem?_eq_getElem (l := runes) (i := range.last) (by omega)
    exact hsymbol range.last (by omega) (by omega) _ hget (hstop _ hget)

/-- **The longer words of a sentence** are the words of the dictionary that have no separators. -/
theorem mem_wordRanges_iff (hlt : i < j) :
    (⟨i, j⟩ : WordRange) ∈ wordRanges symbols (FullSegment.cutRange dict) runes ↔
      dict.IsWord (runes.map RuneStr.rune) ⟨i, j⟩ ∧
        ∀ r ∈ Span.slice runes ⟨i, j⟩, r.rune ∉ symbols := by
  constructor
  · intro hmem
    obtain ⟨range, hrange, wr, hwr, hshift⟩ := mem_wordRanges hmem
    have hlong : wr.left < wr.right := by
      rw [Span.ext_iff] at hshift
      obtain ⟨hleft, hright⟩ := hshift
      dsimp only [Span.shift] at hleft hright
      omega
    have hword : dict.IsWord ((range.of runes).map RuneStr.rune) wr := by
      rcases FullSegment.mem_cutRange.mp hwr with ⟨-, hword⟩ | ⟨heq, -⟩
      · exact hword
      · omega
    have hright : wr.right < range.last - range.first := by
      have hbound := hword.bounds.2
      rwa [List.length_map, length_of hrange.le] at hbound
    rw [hshift]
    refine ⟨(isWord_of hright).mp hword, ?_⟩
    rw [← slice_of hright]
    rcases hrange.clean with ⟨hone, -⟩ | ⟨hclean, -⟩
    · omega
    · exact fun r hr => hclean r ((Span.slice_infix _ _).subset hr)
  · rintro ⟨hword, hclean⟩
    have hbound := hword.bounds.2
    rw [List.length_map] at hbound
    obtain ⟨range, hmem, hfirst, hlong⟩ := exists_range_of_clean hlt hbound hclean
    have hshift : Span.shift range.first ⟨i - range.first, j - range.first⟩ = ⟨i, j⟩ := by
      unfold Span.shift
      simp only [Span.mk.injEq]
      omega
    refine List.mem_flatMap.mpr ⟨range, hmem, List.mem_map.mpr ⟨_, ?_, hshift⟩⟩
    refine FullSegment.mem_cutRange.mpr (.inl ⟨by omega, ?_⟩)
    rw [isWord_of (by dsimp only; omega), hshift]
    exact hword

end Ranges

/-! ## The tokens -/

namespace JiebaTool

section Tokens

variable {dict : DictTrie W} {sentence : Str} {runes : List RuneStr} {pieces : List Str}

/-- The tokens are slices of the sentence. -/
theorem cut_of_divides (h : Divides 0 0 pieces runes) :
    JiebaTool.cut dict pieces.flatten =
      .ok ((wordRanges symbols (FullSegment.cutRange dict) runes).map fun wr =>
        (wr.slice pieces).flatten) := by
  obtain ⟨words, hwords, hstrings⟩ := @cutSentence_eq symbols _ _ (FullSegment.cutRange_bounds dict) _ h
  unfold JiebaTool.cut FullSegment.cut
  rw [hwords, ← hstrings]
  rfl

theorem cut_eq (dict : DictTrie W) (target : Str) :
    JiebaTool.cut dict target = .ok (tokens dict target) := by
  have hok : ∃ words, JiebaTool.cut dict target = .ok words := by
    cases hdecode : decodeRunesInString target with
    | none =>
      unfold JiebaTool.cut FullSegment.cut
      rw [cutSentence_of_none hdecode]
      exact ⟨_, rfl⟩
    | some runes =>
      obtain ⟨pieces, rfl, hdivides⟩ := decodeRunesInString_eq_some.mp hdecode
      exact ⟨_, cut_of_divides hdivides⟩
  obtain ⟨words, hwords⟩ := hok
  unfold tokens
  rw [hwords]
  rfl

theorem tokens_of_divides (h : Divides 0 0 pieces runes) :
    tokens dict pieces.flatten = (wordRanges symbols (FullSegment.cutRange dict) runes).map fun wr =>
      (wr.slice pieces).flatten :=
  Except.ok.inj ((cut_eq dict _).symm.trans (cut_of_divides h))

/-- The tokens of a text in UTF-8 are texts in UTF-8. -/
theorem tokens_encode (dict : DictTrie W) (cs : List Char) :
    ∃ runes, runes.map RuneStr.rune = cs.map Char.val ∧
      tokens dict (Utf8.encode cs) =
        (wordRanges symbols (FullSegment.cutRange dict) runes).map fun wr =>
          Utf8.encode (wr.slice cs) := by
  obtain ⟨runes, -, hrunes, hdivides⟩ := decodeRunesInString_encode cs
  have hflatten : ∀ ds : List Char, (ds.map String.utf8EncodeChar).flatten = Utf8.encode ds :=
    fun ds => rfl
  refine ⟨runes, hrunes, ?_⟩
  rw [← hflatten, tokens_of_divides hdivides]
  simp only [Span.slice_map, hflatten]

/-- A character is a separator. -/
def Separator (c : Char) : Prop := c.val ∈ symbols

instance (c : Char) : Decidable (Separator c) := inferInstanceAs (Decidable (_ ∈ _))

theorem slice_clean {cs : List Char} (hrunes : runes.map RuneStr.rune = cs.map Char.val)
    (wr : WordRange) : (∀ r ∈ Span.slice runes wr, r.rune ∉ symbols) ↔
      ∀ c ∈ Span.slice cs wr, ¬ Separator c := by
  have hslice := congrArg (Span.slice · wr) hrunes
  simp only [Span.slice_map] at hslice
  have hleft : (∀ r ∈ Span.slice runes wr, r.rune ∉ symbols) ↔
      ∀ rune ∈ (Span.slice runes wr).map RuneStr.rune, rune ∉ symbols := by
    simp only [List.forall_mem_map]
  rw [hleft, hslice, List.forall_mem_map]
  rfl

/-- A longer word is cut out of a text wherever it stands. -/
theorem mem_wordRanges_word {cs ws : List Char} (hrunes : runes.map RuneStr.rune = cs.map Char.val)
    (hlong : 2 ≤ ws.length) {wr : WordRange} (hright : wr.right < cs.length) (hslice : wr.slice cs = ws) :
    wr ∈ wordRanges symbols (FullSegment.cutRange dict) runes ↔
      dict.Knows (ws.map Char.val) ∧ ∀ c ∈ ws, ¬ Separator c := by
  obtain ⟨i, j⟩ := wr
  have hwidth := Span.length_slice hright
  rw [hslice] at hwidth
  dsimp only at hright hwidth
  have hlt : i < j := by omega
  rw [mem_wordRanges_iff hlt, slice_clean hrunes, isWord_iff, hrunes, Span.slice_map, hslice,
    List.length_map]
  constructor
  · exact fun ⟨⟨_, _, hknows⟩, hclean⟩ => ⟨hknows, hclean⟩
  · exact fun ⟨hknows, hclean⟩ => ⟨⟨hlt.le, hright, hknows⟩, hclean⟩

/-- **The longer tokens** of a text in UTF-8 are the words of the dictionary that occur in it and have no
separators. -/
theorem mem_tokens_encode {cs ws : List Char} (hlong : 2 ≤ ws.length) :
    Utf8.encode ws ∈ tokens dict (Utf8.encode cs) ↔
      dict.Knows (ws.map Char.val) ∧ (∀ c ∈ ws, ¬ Separator c) ∧ ws <:+: cs := by
  obtain ⟨runes, hrunes, htokens⟩ := tokens_encode dict cs
  have hlength : runes.length = cs.length := by
    rw [← List.length_map RuneStr.rune, hrunes, List.length_map]
  have hne : ws ≠ [] := List.ne_nil_of_length_pos (by omega)
  rw [htokens, List.mem_map, Span.infix_iff hne]
  constructor
  · rintro ⟨wr, hwr, heq⟩
    have hslice := Utf8.encode_injective heq
    have hinside : wr.left ≤ wr.right ∧ wr.right < cs.length :=
      hlength ▸ wordRanges_bounds (FullSegment.cutRange_bounds dict) hwr
    obtain ⟨hknows, hclean⟩ := (mem_wordRanges_word hrunes hlong hinside.2 hslice).mp hwr
    exact ⟨hknows, hclean, wr, hinside.1, hinside.2, hslice⟩
  · rintro ⟨hknows, hclean, wr, -, hright, hslice⟩
    exact ⟨wr, (mem_wordRanges_word hrunes hlong hright hslice).mpr ⟨hknows, hclean⟩, by rw [hslice]⟩

/-- How often a word occurs in a text, also with overlaps. -/
def occurrences (ws cs : List Char) : Nat :=
  (List.range cs.length).countP fun i => (cs.drop i).take ws.length = ws

/-- **Each occurrence is counted once**: a text has a longer word without separators as a token as often as
it occurs. -/
theorem count_tokens_encode (cs : List Char) {ws : List Char} (hlong : 2 ≤ ws.length)
    (hknows : dict.Knows (ws.map Char.val)) (hclean : ∀ c ∈ ws, ¬ Separator c) :
    (tokens dict (Utf8.encode cs)).count (Utf8.encode ws) = occurrences ws cs := by
  obtain ⟨runes, hrunes, htokens⟩ := tokens_encode dict cs
  have hlength : runes.length = cs.length := by
    rw [← List.length_map RuneStr.rune, hrunes, List.length_map]
  set words := wordRanges symbols (FullSegment.cutRange dict) runes with hwords
  have hnodup : words.Nodup := by
    refine wordRanges_nodup (FullSegment.cutRange_bounds dict) (fun rs => ?_) runes
    refine (FullSegment.cutRange_sorted dict rs).imp fun {wr wr'} h heq => ?_
    subst heq
    omega
  have hperm : (words.filter fun wr => wr.slice cs = ws).Perm
      (((List.range cs.length).filter fun i => (cs.drop i).take ws.length = ws).map
        fun i => ⟨i, i + ws.length - 1⟩) := by
    refine (List.perm_ext_iff_of_nodup (hnodup.filter _) ?_).mpr fun wr => ?_
    · exact List.Nodup.map (fun i j h => (Span.ext_iff.mp h).1) (List.nodup_range.filter _)
    · obtain ⟨i, j⟩ := wr
      rw [List.mem_filter, List.mem_map, decide_eq_true_iff]
      constructor
      · rintro ⟨hmem, hslice⟩
        have hinside := wordRanges_bounds (FullSegment.cutRange_bounds dict) hmem
        have hwidth := Span.length_slice (l := cs) (s := ⟨i, j⟩) (hlength ▸ hinside.2)
        rw [hslice] at hwidth
        dsimp only at hinside hwidth
        refine ⟨i, List.mem_filter.mpr ⟨List.mem_range.mpr (by omega), ?_⟩, ?_⟩
        · have hend : j + 1 - i = ws.length := by omega
          rw [decide_eq_true_iff, ← hend]
          exact hslice
        · exact Span.ext rfl (by dsimp only; omega)
      · rintro ⟨i', hi', heq⟩
        obtain ⟨hleft, hright⟩ := Span.ext_iff.mp heq
        dsimp only at hleft hright
        subst hleft hright
        obtain ⟨hi', hdrop⟩ := List.mem_filter.mp hi'
        rw [decide_eq_true_iff] at hdrop
        have hbound := congrArg List.length hdrop
        rw [List.length_take, List.length_drop] at hbound
        have hslice : Span.slice cs ⟨i', i' + ws.length - 1⟩ = ws :=
          (Span.slice_of_length (by omega)).trans hdrop
        have hright : i' + ws.length - 1 < cs.length := by omega
        exact ⟨(mem_wordRanges_word hrunes hlong hright hslice).mpr ⟨hknows, hclean⟩, hslice⟩
  have hcount : (tokens dict (Utf8.encode cs)).count (Utf8.encode ws) =
      (words.filter fun wr => wr.slice cs = ws).length := by
    rw [htokens, ← List.countP_eq_length_filter, List.count, List.countP_map]
    refine List.countP_congr fun wr _ => ?_
    rw [Function.comp_apply, beq_iff_eq, decide_eq_true_iff]
    exact ⟨fun h => Utf8.encode_injective h, fun h => congrArg Utf8.encode h⟩
  rw [hcount, hperm.length_eq, List.length_map, occurrences, List.countP_eq_length_filter]

theorem knows_oneWordDict {key : List Rune} : oneWordDict.Knows key ↔ key = zhongguo := by
  unfold DictTrie.Knows
  rw [find?_oneWordDict]
  constructor
  · rintro ⟨-, -, h⟩
    by_contra hne
    rw [if_neg hne] at h
    cases h
  · rintro rfl
    decide

-- Deciding it would try every `Char`.
theorem not_separator_zhongguo : ∀ c ∈ ['中', '国'], ¬ Separator c :=
  List.forall_mem_cons.mpr ⟨by decide, List.forall_mem_singleton.mpr (by decide)⟩

/-- **The longer tokens, with their numbers.** A text has each word of the dictionary without separators as a
token as often as the word occurs in it, and no other token of several characters. -/
theorem count_tokens (dict : DictTrie W) (cs : List Char) {ws : List Char}
    [Decidable (∀ c ∈ ws, ¬ Separator c)] (hlong : 2 ≤ ws.length) :
    (tokens dict (Utf8.encode cs)).count (Utf8.encode ws) =
      if dict.Knows (ws.map Char.val) ∧ ∀ c ∈ ws, ¬ Separator c then occurrences ws cs else 0 := by
  split
  · next h => exact count_tokens_encode cs hlong h.1 h.2
  · next h =>
    apply List.count_eq_zero_of_not_mem
    intro hmem
    obtain ⟨hknows, hclean, -⟩ := (mem_tokens_encode hlong).mp hmem
    exact h ⟨hknows, hclean⟩

/-- A word that occurs twice. -/
theorem count_tokens_zhongguo :
    (tokens oneWordDict (lit "中国的中国")).count (lit "中国") = 2 := by
  have hcount := @count_tokens ℤ _ oneWordDict "中国的中国".toList ['中', '国'] _ (by decide)
  rw [if_pos ⟨knows_oneWordDict.mpr rfl, not_separator_zhongguo⟩] at hcount
  exact hcount.trans (by decide)

/-- Tokens of a word are words that occur in it: it leaves no character for a token of its own. -/
theorem tokens_of_word {ws : List Char} (hlong : 2 ≤ ws.length) (hknows : dict.Knows (ws.map Char.val))
    (hclean : ∀ c ∈ ws, ¬ Separator c) {token : Str} :
    token ∈ tokens dict (Utf8.encode ws) ↔ ∃ us, 2 ≤ us.length ∧ dict.Knows (us.map Char.val) ∧
      us <:+: ws ∧ token = Utf8.encode us := by
  constructor
  · intro hmem
    obtain ⟨runes, hrunes, htokens⟩ := tokens_encode dict ws
    have hlength : runes.length = ws.length := by
      rw [← List.length_map RuneStr.rune, hrunes, List.length_map]
    have hnone : ∀ r ∈ runes, r.rune ∉ symbols := by
      have hmap : ∀ rune ∈ runes.map RuneStr.rune, rune ∉ symbols := by
        rw [hrunes]
        exact List.forall_mem_map.mpr hclean
      exact fun r hr => hmap r.rune (List.mem_map_of_mem hr)
    have hne : runes ≠ [] := List.ne_nil_of_length_pos (by omega)
    rw [htokens, wordRanges_clean hne hnone, List.mem_map] at hmem
    obtain ⟨⟨i, j⟩, hwr, rfl⟩ := hmem
    have hwhole : dict.IsWord (runes.map RuneStr.rune) ⟨0, 0 + (ws.length - 1)⟩ := by
      rw [isWord_iff, hrunes, List.length_map]
      refine ⟨by dsimp only; omega, by dsimp only; omega, ?_⟩
      unfold Span.slice
      dsimp only
      rwa [List.drop_zero, List.take_of_length_le (by rw [List.length_map]; omega)]
    rcases FullSegment.mem_cutRange.mp hwr with ⟨hlt, hword⟩ | ⟨rfl, hi, hshort, hreaches⟩
    · rw [isWord_iff, hrunes, Span.slice_map, List.length_map] at hword
      obtain ⟨hle, hright, hword⟩ := hword
      have hwidth := Span.length_slice (l := ws) (s := ⟨i, j⟩) hright
      dsimp only at hle hright hwidth
      exact ⟨_, by omega, hword, Span.slice_infix _ _, rfl⟩
    · -- the word begins at the first character, and reaches over all others
      exfalso
      cases j with
      | zero => exact hshort _ (by omega) hwhole
      | succ j =>
        have hreach := (hreaches 0 (Nat.succ_pos j)).1
        have hlongest := DictTrie.le_longest hwhole
        omega
  · rintro ⟨us, hus, hknows, hpart, rfl⟩
    exact (mem_tokens_encode hus).mpr ⟨hknows, fun c hc => hclean c (hpart.subset hc), hpart⟩

/-- **A character that is not quotable is a token of its own**, when no longer word has one. -/
theorem symbols_alone_encode (hplain : ∀ ws : List Char, 2 ≤ ws.length →
    dict.Knows (ws.map Char.val) → AllQuotable (Utf8.encode ws)) (cs : List Char) :
    ∀ token ∈ tokens dict (Utf8.encode cs), ∀ ch ∈ token, ¬ Quotable ch → token = [ch] := by
  intro token htoken ch hch hquotable
  obtain ⟨runes, hrunes, htokens⟩ := tokens_encode dict cs
  have hlength : runes.length = cs.length := by
    rw [← List.length_map RuneStr.rune, hrunes, List.length_map]
  have htoken' := htoken
  rw [htokens, List.mem_map] at htoken'
  obtain ⟨wr, hwr, rfl⟩ := htoken'
  obtain ⟨hle, hright⟩ := wordRanges_bounds (FullSegment.cutRange_bounds dict) hwr
  rw [hlength] at hright
  have hwidth := Span.length_slice hright
  by_cases hlong : 2 ≤ (Span.slice cs wr).length
  · have hknows := ((mem_tokens_encode hlong).mp htoken).1
    exact absurd (hplain _ hlong hknows ch hch) hquotable
  · obtain ⟨c, hc⟩ := List.length_eq_one_iff.mp (by omega : (Span.slice cs wr).length = 1)
    rw [hc, Utf8.encode, List.flatMap_singleton] at hch ⊢
    have hsize : c.utf8Size = 1 := by
      by_contra hsize
      exact hquotable (quotable_of_not_ascii (Utf8.le_of_mem_encodeChar hsize hch))
    obtain ⟨ch', hone⟩ := List.length_eq_one_iff.mp ((String.length_utf8EncodeChar c).trans hsize)
    rw [hone, List.mem_singleton] at hch
    rw [hone, hch]

end Tokens

end JiebaTool

end LightSearch
