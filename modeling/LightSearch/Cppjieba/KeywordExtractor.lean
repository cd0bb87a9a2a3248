import Mathlib.Data.List.Dedup
import Mathlib.Data.List.Sort
import LightSearch.Cppjieba.MixSegment

/-!
# The keywords of a text

`Extract` cuts a text, counts the words that are neither single characters nor stop words, multiplies
the counts with the inverse document frequencies and keeps the `topN` heaviest words. With each word it
notes where in the text it stands: it adds up the lengths of the words before.

When the lengths do not add up to the length of the text, `Extract` gives up. That never happens to a
text that can be decoded, and always to one that cannot (`extract_spec`, `extract_of_none`).

`partial_sort` is a parameter: any function that moves the heaviest words to the front.
-/

set_option autoImplicit false

namespace LightSearch.Cppjieba

open Cxx HashMap

variable {W : Type}

/-- A keyword, with its places in the text. -/
structure Keyword (W : Type) where
  word : Str
  offsets : List Nat
  weight : W
  deriving DecidableEq

/-- `KeywordExtractor`, with what it has loaded. -/
structure KeywordExtractor (W : Type) where
  dict : DictTrie W
  model : HMMModel W
  idfMap : Map Str W
  idfAverage : W
  stopWords : List Str

namespace KeywordExtractor

section Model

variable [LinearOrder W] [AddZeroClass W] [One W] [Mul W]

/-- `wordmap[word].offsets.push_back(t); wordmap[word].weight += 1.0;` -/
def note (wordmap : Map Str (Keyword W)) (word : Str) (t : Nat) : Map Str (Keyword W) :=
  let old := (wordmap.lookup word).getD ⟨[], [], 0⟩
  wordmap.insert word { old with offsets := old.offsets ++ [t], weight := old.weight + 1 }

/-- A word that is no keyword. -/
def skips (x : KeywordExtractor W) (word : Str) : Bool := isSingleWord word || word ∈ x.stopWords

/-- The loop over the words: `offset` and `wordmap`. -/
def collect (x : KeywordExtractor W) : Nat → Map Str (Keyword W) → List Str →
    Nat × Map Str (Keyword W)
  | offset, wordmap, [] => (offset, wordmap)
  | offset, wordmap, word :: words =>
    let t := offset
    let offset := offset + word.length
    if x.skips word then x.collect offset wordmap words
    else x.collect offset (note wordmap word t) words

/-- The inverse document frequency of a word. -/
def idf (x : KeywordExtractor W) (word : Str) : W := (x.idfMap.lookup word).getD x.idfAverage

/-- The pairs of a `std::map`, by their keys. -/
def byKey (wordmap : Map Str (Keyword W)) : List (Str × Keyword W) :=
  (wordmap.entries.map fun e => (e.1, e.2)).insertionSort fun a b => a.1 ≤ b.1

/-- What the second loop makes of `wordmap`. -/
def weighed (x : KeywordExtractor W) (wordmap : Map Str (Keyword W)) : List (Keyword W) :=
  (byKey wordmap).map fun p =>
    { word := p.1, offsets := p.2.offsets, weight := p.2.weight * x.idf p.1 }

/-- `Extract`, with `std::partial_sort`; `minDouble` is `MIN_DOUBLE`. -/
def extract (x : KeywordExtractor W) (minDouble : W)
    (partial_sort : List (Keyword W) → Nat → List (Keyword W)) (sentence : Str) (topN : Nat) :
    Except Fault (List (Keyword W)) := do
  let words ← MixSegment.cut minDouble x.dict x.model true sentence
  let (offset, wordmap) := x.collect 0 ∅ words
  -- "words illegal"
  if offset ≠ sentence.length then .ok []
  else
    let keywords := x.weighed wordmap
    let topN := min topN keywords.length
    .ok ((partial_sort keywords topN).take topN)

end Model

/-- What `std::partial_sort` by the weight does: the first `n` are the heaviest ones, in order. -/
structure PartialSorts [LinearOrder W] (sort : List (Keyword W) → Nat → List (Keyword W)) : Prop where
  perm : ∀ l n, (sort l n).Perm l
  sorted : ∀ l n, ((sort l n).take n).Pairwise fun a b => b.weight ≤ a.weight
  heaviest : ∀ l n, ∀ a ∈ (sort l n).take n, ∀ b ∈ (sort l n).drop n, b.weight ≤ a.weight

/-! ## The words and their places -/

/-- The words with the places where they begin. -/
def places (offset : Nat) : List Str → List (Nat × Str)
  | [] => []
  | word :: words => (offset, word) :: places (offset + word.length) words

/-- Where a word stands among the words of a text. -/
def offsetsOf (offset : Nat) (words : List Str) (word : Str) : List Nat :=
  ((places offset words).filter fun p => p.2 = word).map Prod.fst

theorem length_offsetsOf (offset : Nat) (words : List Str) (word : Str) :
    (offsetsOf offset words word).length = words.count word := by
  unfold offsetsOf
  rw [List.length_map]
  induction words generalizing offset with
  | nil => rfl
  | cons first words ih =>
    rw [places, List.filter_cons, List.count_cons]
    by_cases hfirst : first = word
    · rw [if_pos (decide_eq_true hfirst), List.length_cons, ih, if_pos (beq_iff_eq.mpr hfirst)]
    · rw [if_neg (by simpa using hfirst), ih, if_neg (by simpa using hfirst), Nat.add_zero]

/-- **The places are right**: the words put together have each word at its places. -/
theorem take_of_mem_offsetsOf {offset t : Nat} {words : List Str} {word : Str}
    (h : t ∈ offsetsOf offset words word) :
    offset ≤ t ∧ (words.flatten.drop (t - offset)).take word.length = word := by
  obtain ⟨⟨t', w⟩, hmem, rfl⟩ := List.mem_map.mp h
  obtain ⟨hplace, hw⟩ := List.mem_filter.mp hmem
  obtain rfl : w = word := of_decide_eq_true hw
  clear h hmem hw
  induction words generalizing offset with
  | nil => exact absurd hplace List.not_mem_nil
  | cons first words ih =>
    rcases List.mem_cons.mp hplace with heq | hplace
    · obtain ⟨rfl, rfl⟩ := Prod.mk.inj heq
      rw [Nat.sub_self, List.drop_zero, List.flatten_cons, List.take_left]
      exact ⟨Nat.le_refl _, rfl⟩
    · obtain ⟨hle, htake⟩ := ih hplace
      dsimp only at hle htake ⊢
      have hsub : t' - offset = first.length + (t' - (offset + first.length)) := by omega
      rw [hsub, List.flatten_cons, ← List.drop_drop, List.drop_left]
      exact ⟨by omega, htake⟩

section Collect

variable [AddZeroClass W] [One W]

/-- An entry with places added to it. -/
def noted (k : Keyword W) (offsets : List Nat) : Keyword W :=
  { k with offsets := k.offsets ++ offsets, weight := (fun w => w + 1)^[offsets.length] k.weight }

theorem noted_cons (k : Keyword W) (t : Nat) (offsets : List Nat) :
    noted k (t :: offsets) =
      noted { k with offsets := k.offsets ++ [t], weight := k.weight + 1 } offsets := by
  unfold noted
  dsimp only
  rw [List.append_assoc, List.singleton_append, List.length_cons, Function.iterate_succ_apply]

theorem lookup_note (wordmap : Map Str (Keyword W)) (word word' : Str) (t : Nat) :
    (note wordmap word t).lookup word' =
      if word' = word then some (noted ((wordmap.lookup word').getD ⟨[], [], 0⟩) [t])
      else wordmap.lookup word' := by
  unfold note
  by_cases h : word' = word
  · subst h
    rw [if_pos rfl]
    exact AList.lookup_insert wordmap
  · rw [if_neg h]
    exact AList.lookup_insert_ne h

variable {x : KeywordExtractor W}

/-- The offset goes over all words. -/
theorem collect_fst (offset : Nat) (wordmap : Map Str (Keyword W)) (words : List Str) :
    (x.collect offset wordmap words).1 = offset + words.flatten.length := by
  induction words generalizing offset wordmap with
  | nil => rfl
  | cons word words ih =>
    unfold collect
    dsimp only
    rw [List.flatten_cons, List.length_append, ← Nat.add_assoc]
    split
    · exact ih _ _
    · exact ih _ _

/-- A word that is skipped is not noted. -/
theorem lookup_collect_skipped {word : Str} (hskip : x.skips word = true) (offset : Nat)
    (wordmap : Map Str (Keyword W)) (words : List Str) :
    (x.collect offset wordmap words).2.lookup word = wordmap.lookup word := by
  induction words generalizing offset wordmap with
  | nil => rfl
  | cons first words ih =>
    unfold collect
    dsimp only
    split
    · exact ih _ _
    · next hfirst =>
      have hne : word ≠ first := fun h => hfirst (h ▸ hskip)
      rw [ih, lookup_note, if_neg hne]

/-- **What the loop notes** of another word: its places. -/
theorem lookup_collect {word : Str} (hskip : x.skips word = false) (offset : Nat)
    (wordmap : Map Str (Keyword W)) (words : List Str) :
    (x.collect offset wordmap words).2.lookup word =
      if word ∈ words then
        some (noted ((wordmap.lookup word).getD ⟨[], [], 0⟩) (offsetsOf offset words word))
      else wordmap.lookup word := by
  induction words generalizing offset wordmap with
  | nil => exact (if_neg List.not_mem_nil).symm
  | cons first words ih =>
    have hoffsets : offsetsOf offset (first :: words) word = if first = word then
        offset :: offsetsOf (offset + first.length) words word
        else offsetsOf (offset + first.length) words word := by
      unfold offsetsOf
      rw [places, List.filter_cons]
      by_cases h : first = word
      · rw [if_pos (decide_eq_true h), if_pos h, List.map_cons]
      · rw [if_neg (by simpa using h), if_neg h]
    unfold collect
    dsimp only
    by_cases hfirst : first = word
    · subst hfirst
      rw [if_neg (by simp [hskip]), ih, lookup_note, if_pos rfl, Option.getD_some, hoffsets, if_pos rfl,
        if_pos List.mem_cons_self]
      split
      · exact congrArg some (noted_cons _ offset _).symm
      · next hnot =>
        have hnil : offsetsOf (offset + first.length) words first = [] := by
          apply List.eq_nil_of_length_eq_zero
          rw [length_offsetsOf, List.count_eq_zero_of_not_mem hnot]
        rw [hnil]
    · have hmem : word ∈ first :: words ↔ word ∈ words := by simp [Ne.symm hfirst]
      simp only [hmem, hoffsets, if_neg hfirst]
      split
      · exact ih _ _
      · rw [ih, lookup_note, if_neg (Ne.symm hfirst)]

end Collect

/-! ## The keywords -/

/-- The words of a text that can be keywords. -/
def candidates (x : KeywordExtractor W) (words : List Str) : List Str :=
  (words.filter fun word => !x.skips word).dedup

theorem mem_candidates {x : KeywordExtractor W} {words : List Str} {word : Str} :
    word ∈ x.candidates words ↔ word ∈ words ∧ x.skips word = false := by
  unfold candidates
  rw [List.mem_dedup, List.mem_filter, Bool.not_eq_true']

section Extract

variable [LinearOrder W] [AddZeroClass W] [One W] [Mul W] {x : KeywordExtractor W} {minDouble : W}
  {sort : List (Keyword W) → Nat → List (Keyword W)} {sentence : Str}

/-- The keyword that a word of a text is. -/
def keywordOf (x : KeywordExtractor W) (words : List Str) (word : Str) : Keyword W where
  word := word
  offsets := offsetsOf 0 words word
  weight := (fun w => w + 1)^[words.count word] 0 * x.idf word

omit [LinearOrder W] [Mul W] in
/-- An entry of the map is a candidate with its places. -/
theorem lookup_collect_empty {words : List Str} {word : Str} {k : Keyword W} :
    (x.collect 0 ∅ words).2.lookup word = some k ↔
      word ∈ x.candidates words ∧ k = noted ⟨[], [], 0⟩ (offsetsOf 0 words word) := by
  rw [mem_candidates]
  by_cases hskip : x.skips word = true
  · rw [lookup_collect_skipped hskip, AList.lookup_empty]
    simp [hskip]
  · rw [Bool.not_eq_true] at hskip
    rw [lookup_collect hskip, AList.lookup_empty]
    by_cases hmem : word ∈ words
    · simp [hmem, hskip, eq_comm]
    · simp [hmem]

omit [LinearOrder W] in
/-- **What is weighed**: each word once, in some order. -/
theorem weighed_perm (x : KeywordExtractor W) (words : List Str) :
    (x.weighed (x.collect 0 ∅ words).2).Perm ((x.candidates words).map (x.keywordOf words)) := by
  set wordmap := (x.collect 0 ∅ words).2 with hwordmap
  have hkeys : (byKey wordmap).Perm (inOrder .asIs wordmap) := List.perm_insertionSort _ _
  have hweight : ∀ word, noted ⟨[], [], 0⟩ (offsetsOf 0 words word) =
      (⟨[], offsetsOf 0 words word, (fun w => w + 1)^[words.count word] 0⟩ : Keyword W) := by
    intro word
    unfold noted
    rw [length_offsetsOf]
    rfl
  have hnodup : ((x.weighed wordmap).map Keyword.word).Nodup := by
    unfold weighed
    rw [List.map_map]
    exact ((hkeys.map Prod.fst).nodup_iff).mpr (nodup_inOrder .asIs wordmap)
  have hnodup' : ((x.candidates words).map (x.keywordOf words)).Nodup :=
    List.Nodup.map (fun a b h => congrArg Keyword.word h) (List.nodup_dedup _)
  refine (List.perm_ext_iff_of_nodup (List.Nodup.of_map _ hnodup) hnodup').mpr fun k => ?_
  unfold weighed
  simp only [List.mem_map, hkeys.mem_iff]
  constructor
  · rintro ⟨⟨word, v⟩, hmem, rfl⟩
    obtain ⟨hcandidate, rfl⟩ := lookup_collect_empty.mp (mem_inOrder.mp hmem)
    refine ⟨word, hcandidate, ?_⟩
    rw [hweight]
    rfl
  · rintro ⟨word, hcandidate, rfl⟩
    refine ⟨(word, _), mem_inOrder.mpr (lookup_collect_empty.mpr ⟨hcandidate, rfl⟩), ?_⟩
    rw [hweight]
    rfl

/-- A text that cannot be decoded has no keywords. -/
theorem extract_of_none (hdecode : decodeRunesInString sentence = none) (topN : Nat) :
    x.extract minDouble sort sentence topN = .ok [] := by
  have hne : sentence ≠ [] := by
    rintro rfl
    cases hdecode
  unfold extract
  rw [MixSegment.cut_of_none true hdecode, Except.ok_bind]
  exact if_pos fun h => hne (List.eq_nil_of_length_eq_zero h.symm)

/-- A text whose words are all skipped has no keywords. -/
theorem extract_of_candidates {words : List Str}
    (hcut : MixSegment.cut minDouble x.dict x.model true sentence = .ok words)
    (hnone : x.candidates words = []) (topN : Nat) :
    x.extract minDouble sort sentence topN = .ok [] := by
  have hweighed : x.weighed (x.collect 0 ∅ words).2 = [] := by
    have hperm := x.weighed_perm words
    rw [hnone, List.map_nil] at hperm
    exact hperm.eq_nil
  unfold extract
  rw [hcut, Except.ok_bind]
  dsimp only
  rw [hweighed]
  split
  · rfl
  · simp

/-- `Extract` returns. -/
theorem exists_extract (x : KeywordExtractor W) (minDouble : W)
    (sort : List (Keyword W) → Nat → List (Keyword W)) (sentence : Str) (topN : Nat) :
    ∃ keywords, x.extract minDouble sort sentence topN = .ok keywords := by
  cases hdecode : decodeRunesInString sentence with
  | none => exact ⟨[], extract_of_none hdecode topN⟩
  | some runes =>
    obtain ⟨words, hcut, -⟩ := @MixSegment.cut_flatten W _ _ minDouble x.dict x.model
      sentence runes true hdecode
    unfold extract
    rw [hcut, Except.ok_bind]
    dsimp only
    split
    · exact ⟨_, rfl⟩
    · exact ⟨_, rfl⟩

/-- **The keywords of a text** that can be decoded are its heaviest words, in order, each with its weight
and its places. -/
theorem extract_spec (hsort : PartialSorts sort) {runes : List RuneStr}
    (hdecode : decodeRunesInString sentence = some runes) (topN : Nat) :
    ∃ words keywords, MixSegment.cut minDouble x.dict x.model true sentence = .ok words ∧
      x.extract minDouble sort sentence topN = .ok keywords ∧
      keywords.length = min topN (x.candidates words).length ∧
      (keywords.map Keyword.word).Nodup ∧
      keywords.Pairwise (fun a b => b.weight ≤ a.weight) ∧
      (∀ k ∈ keywords, k.word ∈ x.candidates words ∧ k = x.keywordOf words k.word ∧
        ∀ t ∈ k.offsets, (sentence.drop t).take k.word.length = k.word) ∧
      ∀ word ∈ x.candidates words, word ∉ keywords.map Keyword.word →
        ∀ k ∈ keywords, (x.keywordOf words word).weight ≤ k.weight := by
  obtain ⟨words, hcut, hflatten, -⟩ := @MixSegment.cut_flatten W _ _ minDouble x.dict x.model
    sentence runes true hdecode
  have hoffset : (x.collect 0 ∅ words).1 = sentence.length := by
    rw [collect_fst, Nat.zero_add, hflatten]
  set n := min topN (x.weighed (x.collect 0 ∅ words).2).length with hn
  set sorted := sort (x.weighed (x.collect 0 ∅ words).2) n with hsorted
  have hperm : sorted.Perm ((x.candidates words).map (x.keywordOf words)) :=
    (hsort.perm _ _).trans (x.weighed_perm words)
  have hlength : sorted.length = (x.candidates words).length := by
    rw [hperm.length_eq, List.length_map]
  have hn' : n = min topN (x.candidates words).length := by
    rw [hn, (x.weighed_perm words).length_eq, List.length_map]
  have hwords : (sorted.map Keyword.word).Nodup := by
    refine ((hperm.map Keyword.word).nodup_iff).mpr ?_
    rw [List.map_map]
    exact List.Nodup.map (fun a b h => h) (List.nodup_dedup _)
  refine ⟨words, sorted.take n, hcut, ?_, ?_, ?_, hsort.sorted _ _, ?_, ?_⟩
  · unfold extract
    rw [hcut, Except.ok_bind]
    exact if_neg fun h => h hoffset
  · rw [List.length_take, hlength, hn', Nat.min_assoc, Nat.min_self]
  · exact hwords.sublist ((List.take_sublist n sorted).map Keyword.word)
  · intro k hk
    obtain ⟨word, hword, rfl⟩ := List.mem_map.mp (hperm.mem_iff.mp (List.mem_of_mem_take hk))
    refine ⟨hword, rfl, fun t ht => ?_⟩
    obtain ⟨-, htake⟩ := take_of_mem_offsetsOf ht
    rwa [Nat.sub_zero, hflatten] at htake
  · intro word hword hnot k hk
    have hmem : x.keywordOf words word ∈ sorted := hperm.mem_iff.mpr (List.mem_map_of_mem hword)
    rw [← List.take_append_drop n sorted] at hmem
    rcases List.mem_append.mp hmem with htake | hdrop
    · exact absurd (List.mem_map_of_mem (f := Keyword.word) htake) hnot
    · exact hsort.heaviest _ _ k hk _ hdrop

end Extract

/-- All keywords by their weight, the heaviest first. -/
def sortAll [LinearOrder W] (l : List (Keyword W)) (_ : Nat) : List (Keyword W) :=
  l.insertionSort fun a b => b.weight ≤ a.weight

theorem sortAll_sorted [LinearOrder W] (l : List (Keyword W)) (n : Nat) :
    (sortAll l n).Pairwise fun a b => b.weight ≤ a.weight := by
  have : IsTrans (Keyword W) fun a b => b.weight ≤ a.weight := ⟨fun _ _ _ hab hbc => hbc.trans hab⟩
  have : Std.Total fun a b : Keyword W => b.weight ≤ a.weight := ⟨fun _ _ => le_total _ _⟩
  exact List.pairwise_insertionSort _ l

theorem partialSorts_sortAll [LinearOrder W] : PartialSorts (@sortAll W _) where
  perm l _ := List.perm_insertionSort _ l
  sorted l n := (sortAll_sorted l n).sublist (List.take_sublist n _)
  heaviest l n := by
    have hsorted := sortAll_sorted l n
    rw [← List.take_append_drop n (sortAll l n)] at hsorted
    exact (List.pairwise_append.mp hsorted).2.2

def smallExtractor : KeywordExtractor ℤ := ⟨oneWordDict, HMMSegment.smallModel, ∅, 1, []⟩

/-- 中国 is on fewer documents than other words. -/
def threeWordExtractor : KeywordExtractor ℤ :=
  ⟨threeWordDict, HMMSegment.smallModel, (∅ : Map Str ℤ).insert (lit "中国") 3, 1, []⟩

/-- 国人中国国人: 中国 is heavier, though it stands there once. -/
theorem extract_spec_zhongguo :
    let keywords : List (Keyword ℤ) := [⟨lit "中国", [6], 3⟩, ⟨lit "国人", [0, 12], 2⟩]
    threeWordExtractor.extract (-100) sortAll (lit "国人中国国人") 5 = .ok keywords ∧
      (keywords.map Keyword.word).Nodup ∧ keywords.Pairwise (fun a b => b.weight ≤ a.weight) ∧
      ∀ k ∈ keywords, ∀ t ∈ k.offsets, ((lit "国人中国国人").drop t).take k.word.length = k.word := by
  intro keywords
  have hdecode := Option.eq_some_of_isSome
    (by decide +kernel : (decodeRunesInString (lit "国人中国国人")).isSome)
  have hkeywords : threeWordExtractor.extract (-100) sortAll (lit "国人中国国人") 5 = .ok keywords := by
    decide +kernel
  obtain ⟨_, extracted, -, hextract, -, hnodup, hsorted, hplaces, -⟩ :=
    @extract_spec ℤ _ _ _ _ threeWordExtractor (-100) sortAll _ partialSorts_sortAll _ hdecode 5
  obtain rfl := Except.ok.inj (hkeywords.symm.trans hextract)
  exact ⟨hextract, hnodup, hsorted, fun k hk => (hplaces k hk).2.2⟩

end KeywordExtractor

end LightSearch.Cppjieba
