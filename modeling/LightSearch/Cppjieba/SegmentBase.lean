import Mathlib.Data.List.Nodup
import LightSearch.Cppjieba.Trie

/-!
# Sentences in ranges

All segmenters begin in the same way. `PreFilter` decodes the sentence and goes over its runes: a
separator is a range of its own, and so is each stretch between separators. Every range is cut on its
own, and the ranges of runes that come out of it are turned into words of the sentence.

The ranges stand one behind the other, none of them is empty, and the loop ends (`ranges_tile`). So a
segmenter that tiles the runes of a range tiles the sentence, and its words put together are the
sentence (`cutSentence_of_tiles`). A sentence that cannot be decoded has no words at all
(`cutSentence_of_none`).
-/

set_option autoImplicit false

namespace LightSearch.Cppjieba

open Cxx

/-! ## Separators -/

/-- `SPECIAL_SEPARATORS`. -/
def specialSeparators : Str := lit " \t\n，。"

/-- `ResetSeparators`; `none` where it returns `false`. -/
def resetSeparators (s : Str) : Option (List Rune) :=
  (decodeRunesInString s).bind fun runes =>
    runes.foldlM (fun symbols r => if r.rune ∈ symbols then none else some (symbols ++ [r.rune])) []

/-- `symbols_`, as the constructor leaves it. -/
def symbols : List Rune := (resetSeparators specialSeparators).getD []

theorem symbols_eq : symbols = [0x20, 0x09, 0x0a, 0xff0c, 0x3002] := by decide

/-! ## The filter -/

/-- `PreFilter::Range`: the runes from `first` up to `last`, without `last`. -/
structure Range where
  first : Nat
  last : Nat
  deriving DecidableEq

/-- `PreFilter`. -/
structure PreFilter where
  sentence : List RuneStr
  cursor : Nat

def PreFilter.hasNext (filter : PreFilter) : Bool := filter.cursor ≠ filter.sentence.length

/-- The loop of `Next`, with the runes from the cursor on: where the cursor stops. -/
def nextEnd (symbols : List Rune) (first cursor : Nat) : List RuneStr → Nat
  | [] => cursor
  | r :: rest =>
    if r.rune ∈ symbols then if first = cursor then cursor + 1 else cursor
    else nextEnd symbols first (cursor + 1) rest

/-- `Next`. -/
def PreFilter.next (symbols : List Rune) (filter : PreFilter) : Range × PreFilter :=
  let cursor := nextEnd symbols filter.cursor filter.cursor (filter.sentence.drop filter.cursor)
  (⟨filter.cursor, cursor⟩, { filter with cursor })

/-- The ranges of at most `rounds` rounds of `while (pre_filter.HasNext())`. -/
def PreFilter.ranges (symbols : List Rune) : Nat → PreFilter → List Range
  | 0, _ => []
  | rounds + 1, filter =>
    if filter.hasNext then
      (filter.next symbols).1 :: PreFilter.ranges symbols rounds (filter.next symbols).2
    else []

/-- All ranges: every round takes a rune. -/
def ranges (symbols : List Rune) (runes : List RuneStr) : List Range :=
  PreFilter.ranges symbols runes.length ⟨runes, 0⟩

/-- The runes of a range. -/
def Range.of (range : Range) (runes : List RuneStr) : List RuneStr :=
  (runes.drop range.first).take (range.last - range.first)

/-- The loop that all segmenters have: `cut` gives the words of a range by their places in it. -/
def wordRanges (symbols : List Rune) (cut : List RuneStr → List WordRange) (runes : List RuneStr) :
    List WordRange :=
  (ranges symbols runes).flatMap fun range => (cut (range.of runes)).map (Span.shift range.first)

/-- `Cut` of a sentence, the same in all segmenters. -/
def cutSentence (symbols : List Rune) (cut : List RuneStr → List WordRange) (sentence : Str) :
    Except Fault (List Word) :=
  let runes := (decodeRunesInString sentence).getD []
  getWordsFromWordRanges sentence runes (wordRanges symbols cut runes)

/-! ## The ranges -/

section Ranges

variable {symbols : List Rune}

/-- Where the loop of `Next` stops. -/
theorem nextEnd_eq {first cursor : Nat} (hle : first ≤ cursor) (rest : List RuneStr) :
    nextEnd symbols first cursor rest =
      cursor + (rest.takeWhile fun r => r.rune ∉ symbols).length +
        if first = cursor ∧ ∃ r ∈ rest.head?, r.rune ∈ symbols then 1 else 0 := by
  induction rest generalizing cursor with
  | nil => simp [nextEnd]
  | cons r rest ih =>
    unfold nextEnd
    by_cases hr : r.rune ∈ symbols
    · rw [if_pos hr, List.takeWhile_cons_of_neg (by simpa using hr)]
      by_cases hfirst : first = cursor
      · simp [hfirst, hr]
      · simp [hfirst]
    · have hlater : ¬ (first = cursor + 1 ∧ ∃ r ∈ rest.head?, r.rune ∈ symbols) := by
        rintro ⟨h, -⟩
        omega
      rw [if_neg hr, ih (Nat.le_succ_of_le hle), if_neg hlater,
        List.takeWhile_cons_of_pos (by simpa using hr), List.length_cons]
      simp [hr, Nat.add_assoc, Nat.add_comm 1]

/-- A range of the filter: a separator alone, or a stretch without separators up to the next one. -/
structure IsRange (symbols : List Rune) (runes : List RuneStr) (range : Range) : Prop where
  lt : range.first < range.last
  le : range.last ≤ runes.length
  clean : (range.last = range.first + 1 ∧ ∃ r ∈ runes[range.first]?, r.rune ∈ symbols) ∨
    (∀ r ∈ range.of runes, r.rune ∉ symbols) ∧
      ∀ r ∈ runes[range.last]?, r.rune ∈ symbols

/-- **One round**: a range, and the cursor behind it. -/
theorem next_isRange {filter : PreFilter} (h : filter.cursor < filter.sentence.length) :
    IsRange symbols filter.sentence (filter.next symbols).1 := by
  obtain ⟨runes, cursor⟩ := filter
  dsimp only at h
  set clean := ((runes.drop cursor).takeWhile fun r => r.rune ∉ symbols) with hclean
  have hdrop : runes.drop cursor = runes[cursor] :: runes.drop (cursor + 1) :=
    List.drop_eq_getElem_cons h
  have hlen : clean.length ≤ runes.length - cursor := by
    rw [← List.length_drop]
    exact (List.takeWhile_prefix _).length_le
  have hnext := @nextEnd_eq symbols cursor cursor (Nat.le_refl cursor) (runes.drop cursor)
  rw [← hclean, hdrop, List.head?_cons, ← hdrop] at hnext
  unfold PreFilter.next
  dsimp only
  by_cases hr : runes[cursor].rune ∈ symbols
  · have hnil : clean = [] := by
      rw [hclean, hdrop, List.takeWhile_cons_of_neg (by simpa using hr)]
    have hlast : nextEnd symbols cursor cursor (runes.drop cursor) = cursor + 1 := by
      rw [hnext, hnil]
      simp [hr]
    rw [hlast]
    exact ⟨Nat.lt_succ_self _, h, .inl ⟨rfl, _, List.getElem?_eq_getElem h, hr⟩⟩
  · have hlast : nextEnd symbols cursor cursor (runes.drop cursor) = cursor + clean.length := by
      rw [hnext]
      simp [hr]
    have hpos : 0 < clean.length := by
      rw [hclean, hdrop, List.takeWhile_cons_of_pos (by simpa using hr)]
      exact Nat.succ_pos _
    have hsplit : clean ++ (runes.drop cursor).dropWhile (fun r => r.rune ∉ symbols) =
        runes.drop cursor := List.takeWhile_append_dropWhile
    rw [hlast]
    refine ⟨by dsimp only; omega, by dsimp only; omega, .inr ⟨?_, ?_⟩⟩
    · unfold Range.of
      dsimp only
      rw [Nat.add_sub_cancel_left, ← hsplit, List.take_left]
      intro r hmem
      simpa using List.mem_takeWhile_imp hmem
    · -- what the loop stopped at
      have hstop : runes[cursor + clean.length]? =
          ((runes.drop cursor).dropWhile fun r => r.rune ∉ symbols).head? := by
        rw [← List.head?_drop, ← List.drop_drop, ← hsplit, List.drop_left, hsplit]
      have hnot := List.head?_dropWhile_not (fun r : RuneStr => decide (r.rune ∉ symbols))
        (runes.drop cursor)
      intro r hmem
      dsimp only at hmem
      rw [hstop] at hmem
      rw [Option.mem_def.mp hmem] at hnot
      simpa using hnot

def Range.span (range : Range) : Span := ⟨range.first, range.last - 1⟩

/-- **The ranges** stand one behind the other, up to the end of the sentence. -/
theorem ranges_tile (symbols : List Rune) (runes : List RuneStr) :
    Span.Tiles 0 runes.length ((ranges symbols runes).map Range.span) ∧
      ∀ range ∈ ranges symbols runes, IsRange symbols runes range := by
  have hrounds : ∀ (rounds cursor : Nat), cursor ≤ runes.length → runes.length - cursor ≤ rounds →
      Span.Tiles cursor runes.length
          ((PreFilter.ranges symbols rounds ⟨runes, cursor⟩).map Range.span) ∧
        ∀ range ∈ PreFilter.ranges symbols rounds ⟨runes, cursor⟩,
          IsRange symbols runes range := by
    intro rounds
    induction rounds with
    | zero =>
      intro cursor hle hrounds
      obtain rfl : cursor = runes.length := by omega
      exact ⟨.nil _, fun _ h => absurd h List.not_mem_nil⟩
    | succ rounds ih =>
      intro cursor hle hrounds
      unfold PreFilter.ranges
      by_cases hend : cursor = runes.length
      · rw [if_neg (by simp [PreFilter.hasNext, hend]), hend]
        exact ⟨.nil _, fun _ h => absurd h List.not_mem_nil⟩
      · have hlt : cursor < runes.length := by omega
        have hrange : IsRange symbols runes ⟨cursor, nextEnd symbols cursor cursor (runes.drop cursor)⟩ :=
          @next_isRange symbols ⟨runes, cursor⟩ hlt
        have hnext : (PreFilter.mk runes cursor).next symbols =
          (⟨cursor, nextEnd symbols cursor cursor (runes.drop cursor)⟩,
            ⟨runes, nextEnd symbols cursor cursor (runes.drop cursor)⟩) := rfl
        rw [if_pos (by simp [PreFilter.hasNext, hend]), hnext]
        generalize nextEnd symbols cursor cursor (runes.drop cursor) = last at hrange
        have hadvance : cursor < last := hrange.lt
        obtain ⟨htiles, hall⟩ := ih last hrange.le (by omega)
        refine ⟨?_, List.forall_mem_cons.mpr ⟨hrange, hall⟩⟩
        have hlast : last = last - 1 + 1 := by omega
        rw [List.map_cons]
        exact .cons (by dsimp only; omega) (hlast ▸ htiles)
  exact hrounds runes.length 0 (Nat.zero_le _) (Nat.le_refl _)

theorem length_of {runes : List RuneStr} {range : Range} (h : range.last ≤ runes.length) :
    (range.of runes).length = range.last - range.first := by
  unfold Range.of
  rw [List.length_take, List.length_drop]
  omega

end Ranges

/-! ## The words of a sentence -/

section Words

variable {symbols : List Rune} {cut : List RuneStr → List WordRange} {sentence : Str}
  {runes : List RuneStr}

/-- The words of the ranges are places of the sentence. -/
theorem mem_wordRanges {wr : WordRange} (hwr : wr ∈ wordRanges symbols cut runes) :
    ∃ range, IsRange symbols runes range ∧ ∃ wr₀ ∈ cut (range.of runes), wr = wr₀.shift range.first := by
  obtain ⟨range, hrange, hwr⟩ := List.mem_flatMap.mp hwr
  obtain ⟨wr₀, hwr₀, heq⟩ := List.mem_map.mp hwr
  exact ⟨range, (ranges_tile symbols runes).2 range hrange, wr₀, hwr₀, heq.symm⟩

/-- The words of a segmenter whose words lie in their range lie in the sentence. -/
theorem wordRanges_bounds (hcut : ∀ rs, ∀ wr ∈ cut rs, wr.left ≤ wr.right ∧ wr.right < rs.length)
    {wr : WordRange} (hwr : wr ∈ wordRanges symbols cut runes) :
    wr.left ≤ wr.right ∧ wr.right < runes.length := by
  obtain ⟨range, hrange, wr₀, hwr₀, rfl⟩ := mem_wordRanges hwr
  obtain ⟨hle, hlt⟩ := hcut _ wr₀ hwr₀
  rw [length_of hrange.le] at hlt
  have hle' := hrange.le
  show range.first + wr₀.left ≤ range.first + wr₀.right ∧ range.first + wr₀.right < runes.length
  omega

/-- The words of the ranges are different places. -/
theorem wordRanges_nodup (hcut : ∀ rs, ∀ wr ∈ cut rs, wr.left ≤ wr.right ∧ wr.right < rs.length)
    (hnodup : ∀ rs, (cut rs).Nodup) (runes : List RuneStr) : (wordRanges symbols cut runes).Nodup := by
  obtain ⟨htiles, hall⟩ := ranges_tile symbols runes
  have hinside : ∀ range ∈ ranges symbols runes,
      ∀ wr ∈ (cut (range.of runes)).map (Span.shift range.first),
        range.first ≤ wr.left ∧ wr.left < range.last := by
    intro range hrange wr hwr
    obtain ⟨wr₀, hwr₀, rfl⟩ := List.mem_map.mp hwr
    obtain ⟨hle, hlt⟩ := hcut _ wr₀ hwr₀
    rw [length_of (hall range hrange).le] at hlt
    dsimp only [Span.shift]
    omega
  unfold wordRanges
  rw [List.nodup_flatMap]
  refine ⟨fun range _ => List.Nodup.map (fun wr wr' h => ?_) (hnodup _), ?_⟩
  · obtain ⟨hleft, hright⟩ := Span.ext_iff.mp h
    dsimp only [Span.shift] at hleft hright
    exact Span.ext (by omega) (by omega)
  · have hpairwise := List.pairwise_map.mp htiles.pairwise
    refine hpairwise.imp_of_mem fun {range range'} hrange hrange' hlt => ?_
    intro wr hwr hwr'
    have hfirst := hinside range hrange wr hwr
    have hsecond := hinside range' hrange' wr hwr'
    dsimp only [Range.span] at hlt
    omega

/-- A sentence without separators is one range. -/
theorem wordRanges_clean (hne : runes ≠ []) (hclean : ∀ r ∈ runes, r.rune ∉ symbols) :
    wordRanges symbols cut runes = cut runes := by
  obtain ⟨htiles, hall⟩ := ranges_tile symbols runes
  have hend : ∀ range ∈ ranges symbols runes, range.last = runes.length := by
    intro range hmem
    have hrange := hall range hmem
    rcases hrange.clean with ⟨-, r, hr, hsep⟩ | ⟨-, hstop⟩
    · exact absurd hsep (hclean r (List.mem_of_getElem? hr))
    · by_contra hlast
      have hle := hrange.le
      have hget := List.getElem?_eq_getElem (l := runes) (i := range.last) (by omega)
      exact hclean _ (List.getElem_mem _) (hstop _ hget)
  have hpos := List.length_pos_of_ne_nil hne
  have hone : ranges symbols runes = [⟨0, runes.length⟩] := by
    cases hranges : ranges symbols runes with
    | nil =>
      rw [hranges] at htiles
      have hempty := htiles.ne_nil hpos
      exact absurd rfl hempty
    | cons range rest =>
      rw [hranges] at htiles hall hend
      have hlast := hend range List.mem_cons_self
      have hlt := (hall range List.mem_cons_self).lt
      obtain ⟨first, last⟩ := range
      dsimp only at hlast hlt
      subst hlast
      obtain ⟨hfirst, hrest⟩ := Span.Tiles.of_cons htiles
      dsimp only [Range.span] at hfirst hrest
      rw [Nat.sub_add_cancel (by omega)] at hrest
      rw [hfirst, List.map_eq_nil_iff.mp hrest.eq_nil]
  unfold wordRanges
  rw [hone, List.flatMap_singleton]
  unfold Range.of Span.shift
  simp

/-- A segmenter whose words lie in their range never fails, and its words are slices. -/
theorem cutSentence_eq (hcut : ∀ rs, ∀ wr ∈ cut rs, wr.left ≤ wr.right ∧ wr.right < rs.length)
    {pieces : List Str} (h : Divides 0 0 pieces runes) :
    ∃ words, cutSentence symbols cut pieces.flatten = .ok words ∧
      getStringsFromWords words =
        (wordRanges symbols cut runes).map fun wr => (wr.slice pieces).flatten := by
  have hdecode : decodeRunesInString pieces.flatten = some runes :=
    decodeRunesInString_eq_some.mpr ⟨pieces, rfl, h⟩
  unfold cutSentence
  rw [hdecode, Option.getD_some]
  exact h.getWordsFromWordRanges_eq fun wr hwr => wordRanges_bounds hcut hwr

/-- A sentence that cannot be decoded has no words. -/
theorem cutSentence_of_none (hdecode : decodeRunesInString sentence = none) :
    cutSentence symbols cut sentence = .ok [] := by
  unfold cutSentence
  rw [hdecode]
  rfl

/-- The words of a segmenter that tiles its ranges tile the sentence. -/
theorem wordRanges_tile (hcut : ∀ rs, rs ≠ [] → Span.Tiles 0 rs.length (cut rs)) :
    Span.Tiles 0 runes.length (wordRanges symbols cut runes) := by
  obtain ⟨htiles, hall⟩ := ranges_tile symbols runes
  have hflat : wordRanges symbols cut runes =
      ((ranges symbols runes).map Range.span).flatMap fun s =>
        (cut ((⟨s.left, s.right + 1⟩ : Range).of runes)).map (Span.shift s.left) := by
    unfold wordRanges
    rw [List.flatMap_map]
    refine List.flatMap_congr fun range hrange => ?_
    have hlt := (hall range hrange).lt
    unfold Range.span
    dsimp only
    rw [Nat.sub_add_cancel (by omega)]
  rw [hflat]
  refine htiles.flatMap fun s hs => ?_
  obtain ⟨range, hrange, rfl⟩ := List.mem_map.mp hs
  obtain ⟨hlt, hle, -⟩ := hall range hrange
  have hlast : range.last - 1 + 1 = range.last := by omega
  have hlength := length_of hle
  unfold Range.span
  dsimp only
  rw [hlast]
  have hsome := hcut (range.of runes) (List.ne_nil_of_length_pos (by omega))
  have hshift := hsome.shift range.first
  rwa [hlength, Nat.add_zero, Nat.add_sub_cancel' hlt.le] at hshift

/-- **A segmenter that tiles its ranges loses nothing**: the words put together are the sentence. -/
theorem cutSentence_of_tiles (hcut : ∀ rs, rs ≠ [] → Span.Tiles 0 rs.length (cut rs))
    (hnil : cut [] = []) (hdecode : decodeRunesInString sentence = some runes) :
    ∃ words, cutSentence symbols cut sentence = .ok words ∧
      (getStringsFromWords words).flatten = sentence ∧ [] ∉ getStringsFromWords words := by
  obtain ⟨pieces, rfl, hdivides⟩ := decodeRunesInString_eq_some.mp hdecode
  have hinside : ∀ rs, ∀ wr ∈ cut rs, wr.left ≤ wr.right ∧ wr.right < rs.length := by
    intro rs wr hwr
    by_cases hrs : rs = []
    · subst hrs
      rw [hnil] at hwr
      exact absurd hwr List.not_mem_nil
    · exact ((hcut rs hrs).bounds hwr).2
  obtain ⟨words, hwords, hstrings⟩ := @cutSentence_eq symbols cut runes hinside pieces hdivides
  have htiles := @wordRanges_tile symbols cut runes hcut
  refine ⟨words, hwords, ?_, ?_⟩
  · rw [← hdivides.length_eq] at htiles
    have hflatten := htiles.flatten_length
    rw [hstrings]
    conv => rhs; rw [← hflatten]
    rw [List.flatten_flatten, List.map_map]
    rfl
  · rw [hstrings]
    intro hmem
    obtain ⟨wr, hwr, hempty⟩ := List.mem_map.mp hmem
    obtain ⟨-, hle, hlt⟩ := htiles.bounds hwr
    exact hdivides.slice_ne_nil hle (hdivides.length_eq ▸ hlt) hempty

end Words

end LightSearch.Cppjieba
