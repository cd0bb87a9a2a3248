import LightSearch.Cppjieba.HMMSegment
import LightSearch.Cppjieba.MPSegment

/-!
# The mixed segmentation

`MixSegment` cuts a range by the dictionary, and what the dictionary leaves as single runes it gives to
the hidden Markov model, as long as they follow one another. A single rune from a user dictionary is a
word of its own.

The stretches that the model gets are consecutive, so the words tile the range again
(`cutRange_tiles`): the words of a sentence put together are the sentence (`cut_flatten`).
-/

set_option autoImplicit false

namespace LightSearch.Cppjieba

open Cxx

variable {W : Type}

namespace MixSegment

section Model

variable [LinearOrder W] [AddZeroClass W]

/-- A single rune that is not in a user dictionary. -/
def lone (dict : DictTrie W) (keys : List Rune) (wr : WordRange) : Bool :=
  wr.left = wr.right && keys[wr.left]?.all fun r => r ∉ dict.user_dict_single_chinese_word

/-- The stretch between two runes, cut by the model. -/
def hmmCut (minDouble : W) (model : HMMModel W) (runes : List RuneStr) (left right : Nat) :
    List WordRange :=
  (HMMSegment.cutRange minDouble model ((runes.drop left).take (right - left))).map (Span.shift left)

/-- The loop of `Cut` over the words of the dictionary; so many of them have been given to the model
already. -/
def mixWords (minDouble : W) (dict : DictTrie W) (model : HMMModel W) (runes : List RuneStr) :
    Nat → List WordRange → List WordRange
  | _, [] => []
  | skip + 1, _ :: words => mixWords minDouble dict model runes skip words
  | 0, wr :: words =>
    if lone dict (runes.map RuneStr.rune) wr then
      let run := wr :: words.takeWhile (lone dict (runes.map RuneStr.rune))
      let last := run.getLast?.getD wr
      hmmCut minDouble model runes wr.left (last.left + 1) ++
        mixWords minDouble dict model runes (run.length - 1) words
    else wr :: mixWords minDouble dict model runes 0 words

/-- `Cut` of a range of runes. -/
def cutRange (minDouble : W) (dict : DictTrie W) (model : HMMModel W) (hmm : Bool)
    (runes : List RuneStr) : List WordRange :=
  let words := MPSegment.cutRange minDouble dict maxWordLength runes
  if hmm then mixWords minDouble dict model runes 0 words else words

/-- `Cut` of a sentence. -/
def cut (minDouble : W) (dict : DictTrie W) (model : HMMModel W) (hmm : Bool) (sentence : Str) :
    Except Fault (List Str) :=
  (cutSentence symbols (cutRange minDouble dict model hmm) sentence).map getStringsFromWords

end Model

section Tiles

variable [LinearOrder W] [AddZeroClass W] {minDouble : W} {dict : DictTrie W} {model : HMMModel W}

theorem hmmCut_tiles {runes : List RuneStr} {left right : Nat} (hle : left ≤ right)
    (hright : right ≤ runes.length) :
    Span.Tiles left right (hmmCut minDouble model runes left right) := by
  have htiles := (HMMSegment.cutRange_tiles minDouble model
    ((runes.drop left).take (right - left))).shift left
  have hlength : ((runes.drop left).take (right - left)).length = right - left := by
    rw [List.length_take, List.length_drop]
    omega
  rw [hlength, Nat.add_zero, Nat.add_sub_cancel' hle] at htiles
  exact htiles

/-- The loop keeps the tiling. -/
theorem mixWords_tiles {runes : List RuneStr} {words : List WordRange} {skip a b : Nat}
    (hwords : Span.Tiles a b (words.drop skip)) (hb : b ≤ runes.length) :
    Span.Tiles a b (mixWords minDouble dict model runes skip words) := by
  induction words generalizing skip a with
  | nil =>
    rw [List.drop_nil] at hwords
    exact hwords
  | cons wr words ih =>
    cases skip with
    | succ skip => exact ih hwords
    | zero =>
      rw [List.drop_zero] at hwords
      unfold mixWords
      split
      · next hlone =>
        set alone := words.takeWhile (lone dict (runes.map RuneStr.rune)) with halone
        -- the run of single runes, and what is behind it
        have hsplit : wr :: words = (wr :: alone) ++ words.drop alone.length := by
          have happend : alone ++ words.dropWhile (lone dict (runes.map RuneStr.rune)) = words :=
            List.takeWhile_append_dropWhile
          conv => lhs; rw [← happend]
          conv => rhs; rw [← happend, List.drop_left]
          rfl
        obtain ⟨c, hrun, hrest⟩ := (hsplit ▸ hwords).of_append
        have hsingle : ∀ s ∈ wr :: alone, s.left = s.right := by
          have hleft : ∀ {s}, lone dict (runes.map RuneStr.rune) s = true → s.left = s.right :=
            fun h => of_decide_eq_true (Bool.and_eq_true_iff.mp h).1
          rw [List.forall_mem_cons]
          exact ⟨hleft hlone, fun s hs => hleft (List.mem_takeWhile_imp hs)⟩
        have hfirst : wr.left = a := by
          cases hrun
          rfl
        have hlast := List.getLast?_eq_some_getLast (List.cons_ne_nil wr alone)
        have hend := hrun.last_single hsingle hlast
        dsimp only
        rw [hlast, Option.getD_some, hend, hfirst]
        exact (hmmCut_tiles hrun.le (hrest.le.trans hb)).append (ih hrest)
      · cases hwords with
        | cons hle hrest => exact .cons hle (ih hrest)

/-- **Nothing of a range is lost.** -/
theorem cutRange_tiles (minDouble : W) (dict : DictTrie W) (model : HMMModel W) (hmm : Bool)
    (runes : List RuneStr) :
    Span.Tiles 0 runes.length (cutRange minDouble dict model hmm runes) := by
  have hwords := (MPSegment.segmentation_cutRange minDouble dict maxWordLength runes).tiles
  rw [List.length_map] at hwords
  unfold cutRange
  dsimp only
  split
  · exact mixWords_tiles hwords (Nat.le_refl _)
  · exact hwords

/-- **The words of a sentence** that can be decoded, put together, are the sentence, and none of them is
empty. -/
theorem cut_flatten {sentence : Str} {runes : List RuneStr} (hmm : Bool)
    (hdecode : decodeRunesInString sentence = some runes) :
    ∃ words, cut minDouble dict model hmm sentence = .ok words ∧ words.flatten = sentence ∧
      [] ∉ words := by
  have hnil : cutRange minDouble dict model hmm [] = [] := by
    cases hmm with
    | false => rfl
    | true => rfl
  obtain ⟨words, hwords, hflatten, hne⟩ := cutSentence_of_tiles (fun rs _ =>
    cutRange_tiles minDouble dict model hmm rs) hnil hdecode
  refine ⟨getStringsFromWords words, ?_, hflatten, hne⟩
  unfold cut
  rw [hwords]
  rfl

/-- A sentence that cannot be decoded has no words. -/
theorem cut_of_none {sentence : Str} (hmm : Bool) (hdecode : decodeRunesInString sentence = none) :
    cut minDouble dict model hmm sentence = .ok [] := by
  unfold cut
  rw [cutSentence_of_none hdecode]
  rfl

/-- **Nothing is lost, and nothing is added**: the words of every sentence put together are the sentence,
or nothing at all if it cannot be decoded. The weights may be any numbers in a linear order, so `NaN` is not
among them. -/
theorem cut_lossless (minDouble : W) (dict : DictTrie W) (model : HMMModel W) (hmm : Bool)
    (sentence : Str) :
    ∃ words, cut minDouble dict model hmm sentence = .ok words ∧ [] ∉ words ∧
      words.flatten = if (decodeRunesInString sentence).isSome then sentence else [] := by
  cases hdecode : decodeRunesInString sentence with
  | none => exact ⟨[], cut_of_none hmm hdecode, List.not_mem_nil, rfl⟩
  | some runes =>
    obtain ⟨words, hcut, hflatten, hne⟩ :=
      @cut_flatten W _ _ minDouble dict model sentence runes hmm hdecode
    exact ⟨words, hcut, hne, hflatten⟩

end Tiles

end MixSegment

end LightSearch.Cppjieba
