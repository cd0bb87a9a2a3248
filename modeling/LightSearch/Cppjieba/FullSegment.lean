import Mathlib.Data.List.Pairwise
import Mathlib.Data.Nat.Find
import LightSearch.Cppjieba.DictTrie
import LightSearch.Cppjieba.SegmentBase

/-!
# The full segmentation

`FullSegment` is behind `CutAll`: it takes all words of the dictionary that occur in a sentence, with all
their overlaps, and a rune alone only where nothing longer begins there and no word before reaches over
it.

How far the words reach is in `maxIdx`. But for a rune that is no word `wordLen` still has the length of
the last word that was seen, and `maxIdx` is moved by that. So a rune can be in no word at all
(`covered_iff`): all runes are lost that stand behind a word of several runes, when no word begins after
its first rune, up to the next word (`lost_behind_word`). Nothing is lost when every rune is a word
(`covered_of_known`).
-/

set_option autoImplicit false

namespace LightSearch.Cppjieba

open Cxx

variable {W : Type}

namespace FullSegment

/-- The variables of the loop of `Cut`. -/
structure State where
  res : List WordRange
  maxIdx : Nat
  uIdx : Nat
  wordLen : Nat

/-- The inner loop on one of the `size` places of the rune `i`. -/
def takeNext (i size : Nat) (s : State) (next : Nat × Option (DictUnit W)) : State :=
  let wr : WordRange := ⟨i, next.1⟩
  match next.2 with
  | none =>
    { s with
      res := if size = 1 ∧ s.maxIdx ≤ s.uIdx then s.res ++ [wr] else s.res
      -- `wordLen` is the one from before
      maxIdx := if s.uIdx + s.wordLen > s.maxIdx then s.uIdx + s.wordLen else s.maxIdx }
  | some du =>
    let wordLen := du.word.length
    { s with
      res := if 2 ≤ wordLen ∨ size = 1 ∧ s.maxIdx ≤ s.uIdx then s.res ++ [wr] else s.res
      maxIdx := if s.uIdx + wordLen > s.maxIdx then s.uIdx + wordLen else s.maxIdx
      wordLen }

/-- The loop of `Cut` from the rune `i` on. -/
def cutDags : Nat → State → List (Dag W) → State
  | _, s, [] => s
  | i, s, dag :: dags =>
    let s := dag.nexts.foldl (takeNext i dag.nexts.length) s
    cutDags (i + 1) { s with uIdx := s.uIdx + 1 } dags

/-- `Cut` of a range of runes. -/
def cutRange [Zero W] (dict : DictTrie W) (runes : List RuneStr) : List WordRange :=
  (cutDags 0 ⟨[], 0, 0, 0⟩ (findDags dict.root maxWordLength runes)).res

/-- `Cut` of a sentence. -/
def cut [Zero W] (dict : DictTrie W) (sentence : Str) : Except Fault (List Str) :=
  (cutSentence symbols (cutRange dict) sentence).map getStringsFromWords

end FullSegment

/-! ## The words of a range -/

section Spec

variable (dict : DictTrie W) (keys : List Rune)

/-- Whether a range of runes is a word of the dictionary. -/
def DictTrie.IsWord (wr : WordRange) : Prop := (wordAt dict.root maxWordLength keys wr).isSome = true

instance (wr : WordRange) : Decidable (dict.IsWord keys wr) := inferInstanceAs (Decidable (_ = true))

/-- How long the longest word is that begins at a rune; 0 when there is none. -/
def DictTrie.longest (i : Nat) : Nat :=
  Nat.findGreatest (fun len => 0 < len ∧ dict.IsWord keys ⟨i, i + len - 1⟩) (keys.length - i)

/-- How long the longest word is at the last rune before `i` where one begins. -/
def DictTrie.stale : Nat → Nat
  | 0 => 0
  | i + 1 => if dict.longest keys i = 0 then DictTrie.stale i else dict.longest keys i

/-- What comes before the rune `i` reaches no further than up to `m`: the words, and for a rune that is no
word as many runes as the last word had. -/
def DictTrie.Reaches (i m : Nat) : Prop :=
  ∀ p < i, p + dict.longest keys p ≤ m ∧
    (¬ dict.IsWord keys ⟨p, p⟩ → p + dict.stale keys p ≤ m)

instance (i m : Nat) : Decidable (dict.Reaches keys i m) :=
  inferInstanceAs (Decidable (∀ p < i, _))

/-- The ends of the longer words that begin at a rune. -/
def DictTrie.longer (i : Nat) : List Nat :=
  (List.range' (i + 1) (keys.length - (i + 1))).filter fun j => dict.IsWord keys ⟨i, j⟩

/-- What is taken at a rune. -/
def DictTrie.taken (i : Nat) : List WordRange :=
  if dict.longer keys i = [] then if dict.Reaches keys i i then [⟨i, i⟩] else []
  else (dict.longer keys i).map fun j => ⟨i, j⟩

end Spec

section Words

variable {dict : DictTrie W} {keys : List Rune} {i j : Nat}

theorem DictTrie.IsWord.bounds (h : dict.IsWord keys ⟨i, j⟩) : i ≤ j ∧ j < keys.length := by
  obtain ⟨unit, hunit⟩ := Option.isSome_iff_exists.mp h
  exact wordAt_bounds hunit

theorem DictTrie.le_longest (h : dict.IsWord keys ⟨i, j⟩) : j + 1 - i ≤ dict.longest keys i := by
  obtain ⟨hle, hlt⟩ := h.bounds
  have hlast : i + (j + 1 - i) - 1 = j := by omega
  exact Nat.le_findGreatest (by omega) ⟨by omega, hlast.symm ▸ h⟩

theorem DictTrie.isWord_longest (h : dict.longest keys i ≠ 0) :
    dict.IsWord keys ⟨i, i + dict.longest keys i - 1⟩ :=
  (Nat.findGreatest_of_ne_zero (m := dict.longest keys i) rfl h).2

theorem DictTrie.mem_longer : j ∈ dict.longer keys i ↔ i < j ∧ dict.IsWord keys ⟨i, j⟩ := by
  unfold DictTrie.longer
  rw [List.mem_filter, List.mem_range'_1, decide_eq_true_iff]
  constructor
  · exact fun ⟨hrange, hword⟩ => ⟨hrange.1, hword⟩
  · intro ⟨hlt, hword⟩
    have hbounds := hword.bounds
    exact ⟨by omega, hword⟩

theorem DictTrie.longer_sorted (dict : DictTrie W) (keys : List Rune) (i : Nat) :
    (dict.longer keys i).Pairwise (· < ·) :=
  List.Pairwise.filter _ List.pairwise_lt_range'

/-- The longest word is the last of the longer ones, or the rune alone. -/
theorem DictTrie.longest_eq (dict : DictTrie W) (keys : List Rune) (i : Nat) :
    dict.longest keys i = ((dict.longer keys i).getLast?.map (· + 1 - i)).getD
      (if dict.IsWord keys ⟨i, i⟩ then 1 else 0) := by
  cases hlast : (dict.longer keys i).getLast? with
  | none =>
    have hnil := List.getLast?_eq_none_iff.mp hlast
    -- a longer word would be among the longer ones
    have hle : dict.longest keys i ≤ 1 := by
      by_contra hlt
      have hword := @DictTrie.isWord_longest W dict keys i (by omega)
      have hmem := DictTrie.mem_longer.mpr ⟨by omega, hword⟩
      rw [hnil] at hmem
      exact absurd hmem List.not_mem_nil
    rw [Option.map_none, Option.getD_none]
    split
    · next hword =>
      have hle' := DictTrie.le_longest hword
      omega
    · next hword =>
      by_contra hne
      have hone : i + dict.longest keys i - 1 = i := by omega
      have hlongest := DictTrie.isWord_longest hne
      rw [hone] at hlongest
      exact hword hlongest
  | some j =>
    have hmem := List.mem_of_getLast? hlast
    obtain ⟨hlt, hword⟩ := DictTrie.mem_longer.mp hmem
    have hle := DictTrie.le_longest hword
    have hlongest := @DictTrie.isWord_longest W dict keys i (by omega)
    have hmax : i + dict.longest keys i - 1 ≤ j := by
      have hmem' := DictTrie.mem_longer.mpr ⟨by omega, hlongest⟩
      have hsorted := (dict.longer_sorted keys i).imp Nat.le_of_lt
      have hrel := hsorted.rel_getLast hmem'
      rwa [List.getLast_of_getLast?_eq_some hlast] at hrel
    rw [Option.map_some, Option.getD_some]
    omega

theorem DictTrie.longest_of_longer_nil (hnil : dict.longer keys i = []) :
    dict.longest keys i = if dict.IsWord keys ⟨i, i⟩ then 1 else 0 := by
  rw [DictTrie.longest_eq, hnil]
  rfl

theorem DictTrie.longest_ne_zero (hne : dict.longer keys i ≠ []) : dict.longest keys i ≠ 0 := by
  obtain ⟨e, he⟩ := List.exists_mem_of_ne_nil _ hne
  obtain ⟨hlt, hword⟩ := DictTrie.mem_longer.mp he
  have hlen := DictTrie.le_longest hword
  omega

theorem DictTrie.getLast_longer (wordLen : Nat) :
    ((dict.longer keys i).getLast?.map (· + 1 - i)).getD wordLen =
      if dict.longer keys i = [] then wordLen else dict.longest keys i := by
  split
  · next hnil =>
    rw [hnil]
    rfl
  · next hne =>
    rw [DictTrie.longest_eq, List.getLast?_eq_some_getLast hne, Option.map_some, Option.getD_some,
      Option.getD_some]

/-- The longer words reach as far as the last of them. -/
theorem DictTrie.longer_reach_iff (m : Nat) : (∀ e ∈ dict.longer keys i, i + (e + 1 - i) ≤ m) ↔
    (dict.longer keys i ≠ [] → i + dict.longest keys i ≤ m) := by
  constructor
  · intro hall hne
    rw [DictTrie.longest_eq, List.getLast?_eq_some_getLast hne]
    exact hall _ (List.getLast_mem hne)
  · intro hle e he
    have hlen := DictTrie.le_longest (DictTrie.mem_longer.mp he).2
    exact (Nat.add_le_add_left hlen i).trans (hle (List.ne_nil_of_mem he))

end Words

/-! ## The loop -/

namespace FullSegment

section Loop

variable {dict : DictTrie W} {keys : List Rune} {i : Nat}

/-- A place with a word. -/
theorem takeNext_some (i size : Nat) (s : State) (e : Nat) (du : DictUnit W) :
    takeNext i size s (e, some du) =
      { res := if 2 ≤ du.word.length ∨ size = 1 ∧ s.maxIdx ≤ s.uIdx then s.res ++ [⟨i, e⟩] else s.res
        maxIdx := max s.maxIdx (s.uIdx + du.word.length)
        uIdx := s.uIdx
        wordLen := du.word.length } := by
  unfold takeNext
  dsimp only
  congr 1
  rw [max_def_lt]

/-- A place without one: the length of the last word is used. -/
theorem takeNext_none (i size : Nat) (s : State) (e : Nat) :
    takeNext i size s (e, (none : Option (DictUnit W))) =
      { res := if size = 1 ∧ s.maxIdx ≤ s.uIdx then s.res ++ [⟨i, e⟩] else s.res
        maxIdx := max s.maxIdx (s.uIdx + s.wordLen)
        uIdx := s.uIdx
        wordLen := s.wordLen } := by
  unfold takeNext
  dsimp only
  congr 1
  rw [max_def_lt]

/-- The places of longer words are all taken. -/
theorem foldl_longer (size : Nat) {tail : List (Nat × Option (DictUnit W))}
    (htail : ∀ e ∈ tail, i < e.1 ∧ ∃ du, e.2 = some du ∧ du.word.length = e.1 + 1 - i) (s : State) :
    tail.foldl (takeNext i size) s =
      { res := s.res ++ (tail.map Prod.fst).map fun e => ⟨i, e⟩
        maxIdx := (tail.map Prod.fst).foldl (fun maxIdx e => max maxIdx (s.uIdx + (e + 1 - i))) s.maxIdx
        uIdx := s.uIdx
        wordLen := ((tail.map Prod.fst).getLast?.map (· + 1 - i)).getD s.wordLen } := by
  induction tail generalizing s with
  | nil => simp
  | cons e tail ih =>
    rw [List.forall_mem_cons] at htail
    obtain ⟨⟨hlt, du, hdu, hlen⟩, htail⟩ := htail
    obtain ⟨e, found⟩ := e
    dsimp only at hlt hdu hlen
    subst hdu
    have hlong : 2 ≤ du.word.length := by omega
    rw [List.foldl_cons, ih htail, takeNext_some, if_pos (.inl hlong), hlen]
    simp only [List.map_cons, List.append_assoc, List.singleton_append, List.foldl_cons,
      List.getLast?_cons, Option.map_some, Option.getD_some]
    cases (tail.map Prod.fst).getLast? with
    | none => rfl
    | some e' => rfl

theorem foldl_max_le {l : List Nat} {f : Nat → Nat} {start m : Nat} :
    l.foldl (fun acc e => max acc (f e)) start ≤ m ↔ start ≤ m ∧ ∀ e ∈ l, f e ≤ m := by
  induction l generalizing start with
  | nil => simp
  | cons e l ih => rw [List.foldl_cons, ih, max_le_iff, List.forall_mem_cons, and_assoc]

/-- The places of a rune: the rune alone, and the longer words. -/
theorem nextsAt_eq (dict : DictTrie W) (keys : List Rune) (i : Nat) :
    ∃ tail, nextsAt dict.root maxWordLength keys i =
        (i, wordAt dict.root maxWordLength keys ⟨i, i⟩) :: tail ∧
      tail.map Prod.fst = dict.longer keys i ∧
      ∀ e ∈ tail, i < e.1 ∧ ∃ du, e.2 = some du ∧ du.word.length = e.1 + 1 - i := by
  refine ⟨_, rfl, ?_, ?_⟩
  · unfold DictTrie.longer
    rw [List.range'_eq_map_range]
    induction List.range (keys.length - (i + 1)) with
    | nil => rfl
    | cons k ks ih =>
      rw [List.filterMap_cons, List.map_cons, List.filter_cons, ← ih]
      by_cases hword : dict.IsWord keys ⟨i, i + 1 + k⟩
      · obtain ⟨du, hdu⟩ := Option.isSome_iff_exists.mp hword
        rw [if_pos (decide_eq_true hword), hdu]
        rfl
      · rw [if_neg (by simpa using hword), Option.not_isSome_iff_eq_none.mp hword]
        rfl
  · intro e he
    obtain ⟨k, -, hk⟩ := List.mem_filterMap.mp he
    obtain ⟨du, hdu, rfl⟩ := Option.map_eq_some_iff.mp hk
    exact ⟨by dsimp only; omega, du, rfl, DictTrie.length_word hdu⟩

theorem ite_append_nil (c : Prop) [Decidable c] (l l' : List WordRange) :
    (if c then l ++ l' else l) = l ++ if c then l' else [] := by
  split
  · rfl
  · rw [List.append_nil]

/-- **One round**, for a rune with the places of the dictionary. -/
theorem foldl_nextsAt {s : State} (hidx : s.uIdx = i) :
    let nexts := nextsAt dict.root maxWordLength keys i
    let s' := nexts.foldl (takeNext i nexts.length) s
    s'.res = s.res ++ (if dict.longer keys i = [] then if s.maxIdx ≤ i then [⟨i, i⟩] else []
        else (dict.longer keys i).map fun j => ⟨i, j⟩) ∧
      s'.uIdx = i ∧
      s'.wordLen = (if dict.longest keys i = 0 then s.wordLen else dict.longest keys i) ∧
      ∀ m, s'.maxIdx ≤ m ↔ s.maxIdx ≤ m ∧ i + dict.longest keys i ≤ m ∧
        (¬ dict.IsWord keys ⟨i, i⟩ → i + s.wordLen ≤ m) := by
  obtain ⟨tail, hnexts, hfst, htail⟩ := nextsAt_eq dict keys i
  have hsize : (nextsAt dict.root maxWordLength keys i).length = 1 ↔ dict.longer keys i = [] := by
    rw [hnexts, ← hfst, List.length_cons, List.map_eq_nil_iff]
    exact Nat.succ_inj.trans List.length_eq_zero_iff
  dsimp only
  rw [hnexts, List.foldl_cons, ← hnexts, foldl_longer _ htail, hfst]
  by_cases hnil : dict.longer keys i = []
  · have hone := DictTrie.longest_of_longer_nil hnil
    rw [if_pos hnil, hsize.mpr hnil]
    by_cases hword : dict.IsWord keys ⟨i, i⟩
    · obtain ⟨du, hdu⟩ := Option.isSome_iff_exists.mp hword
      have hlen := DictTrie.length_word hdu
      rw [if_pos hword] at hone
      rw [hdu, takeNext_some, hlen, hidx, hnil, hone]
      refine ⟨?_, rfl, ?_, fun m => ?_⟩
      · simp [ite_append_nil]
      · simp
      · simp [hword]
    · rw [if_neg hword] at hone
      rw [Option.not_isSome_iff_eq_none.mp hword, takeNext_none, hidx, hnil, hone]
      refine ⟨?_, rfl, ?_, fun m => ?_⟩
      · simp [ite_append_nil]
      · simp
      · simp [hword]
        omega
  · have hpos := DictTrie.longest_ne_zero hnil
    have hsize' : (nextsAt dict.root maxWordLength keys i).length ≠ 1 := fun h => hnil (hsize.mp h)
    rw [if_neg hnil]
    by_cases hword : dict.IsWord keys ⟨i, i⟩
    · obtain ⟨du, hdu⟩ := Option.isSome_iff_exists.mp hword
      have hlen := DictTrie.length_word hdu
      rw [hdu, takeNext_some, hlen, hidx, DictTrie.getLast_longer, if_neg hnil]
      refine ⟨?_, rfl, (if_neg hpos).symm, fun m => ?_⟩
      · simp [hsize']
      · rw [foldl_max_le, DictTrie.longer_reach_iff, max_le_iff]
        simp only [hnil, ne_eq, not_false_eq_true, true_implies, hword, not_true_eq_false,
          false_implies, and_true]
        omega
    · rw [Option.not_isSome_iff_eq_none.mp hword, takeNext_none, hidx, DictTrie.getLast_longer, if_neg hnil]
      refine ⟨?_, rfl, (if_neg hpos).symm, fun m => ?_⟩
      · simp [hsize']
      · rw [foldl_max_le, DictTrie.longer_reach_iff, max_le_iff]
        simp only [hnil, ne_eq, not_false_eq_true, true_implies, hword]
        omega

/-- **The loop takes what is to be taken** at every rune. -/
theorem cutRange_eq [Zero W] (dict : DictTrie W) (runes : List RuneStr) :
    cutRange dict runes =
      (List.range runes.length).flatMap (dict.taken (runes.map RuneStr.rune)) := by
  generalize hkeys : runes.map RuneStr.rune = keys
  have hloop : ∀ (rest before : List RuneStr), runes = before ++ rest → ∀ s : State,
      s.res = (List.range before.length).flatMap (dict.taken keys) → s.uIdx = before.length →
      s.wordLen = dict.stale keys before.length →
      (∀ m, s.maxIdx ≤ m ↔ dict.Reaches keys before.length m) →
      (cutDags before.length s ((rest.zipIdx before.length).map fun p =>
          (⟨p.1, nextsAt dict.root maxWordLength keys p.2, none, 0⟩ : Dag W))).res =
        (List.range runes.length).flatMap (dict.taken keys) := by
    intro rest
    induction rest with
    | nil =>
      intro before hrunes s hres _ _ _
      rw [hrunes, List.append_nil]
      exact hres
    | cons r rest ih =>
      intro before hrunes s hres hidx hstale hmax
      have hstep := @foldl_nextsAt W dict keys before.length s hidx
      obtain ⟨hres', hidx', hlen', hmax'⟩ := hstep
      have hlength' : (before ++ [r]).length = before.length + 1 := by simp
      have hnext := ih (before ++ [r]) (by rw [hrunes, List.append_assoc]; rfl)
      rw [hlength'] at hnext
      rw [List.zipIdx_cons, List.map_cons, cutDags]
      refine hnext _ ?_ (congrArg (· + 1) hidx') ?_ fun m => ?_
      · rw [List.range_succ, List.flatMap_append, List.flatMap_singleton, ← hres]
        refine hres'.trans ?_
        unfold DictTrie.taken
        simp only [hmax]
      · rw [DictTrie.stale, ← hstale]
        exact hlen'
      · refine (hmax' m).trans ?_
        rw [hmax m, hstale]
        unfold DictTrie.Reaches
        rw [Nat.forall_lt_succ_right]
  unfold cutRange
  rw [findDags_eq, hkeys]
  refine hloop runes [] rfl _ rfl rfl rfl fun m => ?_
  exact ⟨fun _ p hp => absurd hp (Nat.not_lt_zero p), fun _ => Nat.zero_le m⟩

theorem mem_taken {p j : Nat} :
    (⟨p, j⟩ : WordRange) ∈ dict.taken keys i ↔ p = i ∧ (i < j ∧ dict.IsWord keys ⟨i, j⟩ ∨
      j = i ∧ (∀ e, i < e → ¬ dict.IsWord keys ⟨i, e⟩) ∧ dict.Reaches keys i i) := by
  have hnil : dict.longer keys i = [] ↔ ∀ e, i < e → ¬ dict.IsWord keys ⟨i, e⟩ := by
    rw [List.eq_nil_iff_forall_not_mem]
    simp only [DictTrie.mem_longer, not_and]
  unfold DictTrie.taken
  split
  · next h =>
    have hnone := hnil.mp h
    split
    · next hreaches =>
      rw [List.mem_singleton, Span.mk.injEq]
      constructor
      · exact fun ⟨hp, hj⟩ => ⟨hp, .inr ⟨hj, hnone, hreaches⟩⟩
      · rintro ⟨hp, ⟨hlt, hword⟩ | ⟨hj, -⟩⟩
        · exact absurd hword (hnone j hlt)
        · exact ⟨hp, hj⟩
    · next hreaches =>
      refine ⟨fun hmem => absurd hmem List.not_mem_nil, ?_⟩
      rintro ⟨-, ⟨hlt, hword⟩ | ⟨-, -, h⟩⟩
      · exact absurd hword (hnone j hlt)
      · exact absurd h hreaches
  · next h =>
    rw [List.mem_map]
    constructor
    · rintro ⟨e, he, heq⟩
      obtain ⟨rfl, rfl⟩ := Span.mk.injEq .. ▸ heq
      exact ⟨rfl, .inl (DictTrie.mem_longer.mp he)⟩
    · rintro ⟨rfl, hword | ⟨-, hnone, -⟩⟩
      · exact ⟨j, DictTrie.mem_longer.mpr hword, rfl⟩
      · exact absurd (hnil.mpr hnone) h

/-- **What is taken**: each word of several runes, and a rune alone where no longer word begins and
nothing before reaches over it. -/
theorem mem_cutRange [Zero W] {runes : List RuneStr} {j : Nat} :
    (⟨i, j⟩ : WordRange) ∈ cutRange dict runes ↔
      i < j ∧ dict.IsWord (runes.map RuneStr.rune) ⟨i, j⟩ ∨
        j = i ∧ i < runes.length ∧ (∀ e, i < e → ¬ dict.IsWord (runes.map RuneStr.rune) ⟨i, e⟩) ∧
          dict.Reaches (runes.map RuneStr.rune) i i := by
  rw [cutRange_eq, List.mem_flatMap]
  constructor
  · rintro ⟨p, hp, hmem⟩
    obtain ⟨rfl, hword | ⟨hj, hnone, hreaches⟩⟩ := mem_taken.mp hmem
    · exact .inl hword
    · exact .inr ⟨hj, List.mem_range.mp hp, hnone, hreaches⟩
  · rintro (⟨hlt, hword⟩ | ⟨hj, hi, hrest⟩)
    · have hbounds := hword.bounds
      rw [List.length_map] at hbounds
      exact ⟨i, List.mem_range.mpr (by omega), mem_taken.mpr ⟨rfl, .inl ⟨hlt, hword⟩⟩⟩
    · exact ⟨i, List.mem_range.mpr hi, mem_taken.mpr ⟨rfl, .inr ⟨hj, hrest⟩⟩⟩

/-- The words lie in their range. -/
theorem cutRange_bounds [Zero W] (dict : DictTrie W) (runes : List RuneStr) :
    ∀ wr ∈ cutRange dict runes, wr.left ≤ wr.right ∧ wr.right < runes.length := by
  intro wr hwr
  rcases mem_cutRange.mp hwr with ⟨hlt, hword⟩ | ⟨heq, hlt, -⟩
  · have hbound := hword.bounds.2
    rw [List.length_map] at hbound
    exact ⟨hlt.le, hbound⟩
  · exact ⟨heq.ge, heq ▸ hlt⟩

/-- The words come in the order of their places. -/
theorem cutRange_sorted [Zero W] (dict : DictTrie W) (runes : List RuneStr) :
    (cutRange dict runes).Pairwise fun a b =>
      a.left < b.left ∨ a.left = b.left ∧ a.right < b.right := by
  rw [cutRange_eq, List.pairwise_flatMap]
  refine ⟨fun i _ => ?_, ?_⟩
  · unfold DictTrie.taken
    split
    · split
      · exact List.pairwise_singleton _ _
      · exact .nil
    · rw [List.pairwise_map]
      exact (dict.longer_sorted _ i).imp fun hlt => .inr ⟨rfl, hlt⟩
  · refine List.pairwise_lt_range.imp fun hlt wr hwr wr' hwr' => .inl ?_
    rw [(mem_taken.mp hwr).1, (mem_taken.mp hwr').1]
    exact hlt

/-- **The full segmentation** of a range, place by place. -/
theorem cutRange_exact [Zero W] (dict : DictTrie W) (runes : List RuneStr) :
    ((cutRange dict runes).Pairwise fun a b =>
        a.left < b.left ∨ a.left = b.left ∧ a.right < b.right) ∧
      ∀ i j, (⟨i, j⟩ : WordRange) ∈ cutRange dict runes ↔
        i < j ∧ dict.IsWord (runes.map RuneStr.rune) ⟨i, j⟩ ∨
          j = i ∧ i < runes.length ∧
            (∀ e, i < e → ¬ dict.IsWord (runes.map RuneStr.rune) ⟨i, e⟩) ∧
            dict.Reaches (runes.map RuneStr.rune) i i :=
  ⟨cutRange_sorted dict runes, fun _ _ => mem_cutRange⟩

/-! ### What is lost -/

/-- A longer word goes over a rune. -/
def Within (dict : DictTrie W) (keys : List Rune) (i : Nat) : Prop :=
  ∃ p j, p ≤ i ∧ i ≤ j ∧ p < j ∧ dict.IsWord keys ⟨p, j⟩

/-- Outside of the longer words every rune is free for itself, but for the last word's length. -/
theorem reaches_of_not_within (h : ¬ Within dict keys i)
    (hstale : ∀ p < i, ¬ dict.IsWord keys ⟨p, p⟩ → p + dict.stale keys p ≤ i) :
    dict.Reaches keys i i := by
  refine fun p hp => ⟨?_, hstale p hp⟩
  by_contra hlt
  have hword := @DictTrie.isWord_longest W dict keys p (by omega)
  exact h ⟨p, _, hp.le, by omega, by omega, hword⟩

/-- **Which runes are in a word**: those in longer words, and of the others those that no unknown rune
before reaches with the length of the last word. -/
theorem covered_iff [Zero W] {runes : List RuneStr} (hi : i < runes.length) :
    (∃ wr ∈ cutRange dict runes, wr.Has i) ↔
      Within dict (runes.map RuneStr.rune) i ∨
        ∀ p < i, ¬ dict.IsWord (runes.map RuneStr.rune) ⟨p, p⟩ →
          p + dict.stale (runes.map RuneStr.rune) p ≤ i := by
  constructor
  · rintro ⟨⟨p, j⟩, hwr, hp, hj⟩
    dsimp only at hp hj
    rcases mem_cutRange.mp hwr with ⟨hlt, hword⟩ | ⟨rfl, -, -, hreaches⟩
    · exact .inl ⟨p, j, hp, hj, hlt, hword⟩
    · obtain rfl : j = i := Nat.le_antisymm hp hj
      exact .inr fun p hp => (hreaches p hp).2
  · intro h
    by_cases hwithin : Within dict (runes.map RuneStr.rune) i
    · obtain ⟨p, j, hp, hj, hlt, hword⟩ := hwithin
      exact ⟨⟨p, j⟩, mem_cutRange.mpr (.inl ⟨hlt, hword⟩), hp, hj⟩
    · have hstale := h.resolve_left hwithin
      refine ⟨⟨i, i⟩, mem_cutRange.mpr (.inr ⟨rfl, hi, fun e hlt hword => ?_, ?_⟩), ?_⟩
      · exact hwithin ⟨i, e, Nat.le_refl i, hlt.le, hlt, hword⟩
      · exact reaches_of_not_within hwithin hstale
      · exact ⟨Nat.le_refl i, Nat.le_refl i⟩

/-- Nothing is lost of runes that are words. -/
theorem covered_of_known [Zero W] {runes : List RuneStr}
    (hknown : ∀ p < runes.length, dict.IsWord (runes.map RuneStr.rune) ⟨p, p⟩)
    (hi : i < runes.length) : ∃ wr ∈ cutRange dict runes, wr.Has i :=
  (covered_iff hi).mpr (.inr fun p hp hunknown => absurd (hknown p (hp.trans hi)) hunknown)

/-- In a stretch where no word begins, the last word stays the same. -/
theorem stale_of_unknown {p : Nat} (hunknown : ∀ q, p ≤ q → q < i → dict.longest keys q = 0)
    (hle : p ≤ i) : dict.stale keys i = dict.stale keys p := by
  induction hle with
  | refl => rfl
  | @step i hle ih =>
    rw [DictTrie.stale, if_pos (hunknown i hle (Nat.lt_succ_self i))]
    exact ih fun q hq hlt => hunknown q hq (Nat.lt_succ_of_lt hlt)

/-- **Runes are lost** behind a word of several runes when no word begins after its first rune: they are
in no word, up to the next rune where one begins. -/
theorem lost_behind_word [Zero W] {runes : List RuneStr} {p : Nat}
    (hlong : 2 ≤ dict.longest (runes.map RuneStr.rune) p) (hlt : p < i)
    (hunknown : ∀ q, p < q → q ≤ i → dict.longest (runes.map RuneStr.rune) q = 0)
    (hi : i < runes.length) (hwithin : ¬ Within dict (runes.map RuneStr.rune) i) :
    ¬ ∃ wr ∈ cutRange dict runes, wr.Has i := by
  rw [covered_iff hi]
  rintro (h | h)
  · exact hwithin h
  · -- the rune before still has the length of the word
    have hend : p + dict.longest (runes.map RuneStr.rune) p ≤ i := by
      by_contra hover
      have hword := @DictTrie.isWord_longest W dict (runes.map RuneStr.rune) p (by omega)
      exact hwithin ⟨p, _, hlt.le, by omega, by omega, hword⟩
    have hstale : dict.stale (runes.map RuneStr.rune) (i - 1) =
        dict.longest (runes.map RuneStr.rune) p := by
      rw [stale_of_unknown (p := p + 1) (fun q hq hlt' => hunknown q hq (by omega)) (by omega),
        DictTrie.stale, if_neg (by omega)]
    have hnone : ¬ dict.IsWord (runes.map RuneStr.rune) ⟨i - 1, i - 1⟩ := by
      intro hword
      have hlen := DictTrie.le_longest hword
      have hzero := hunknown (i - 1) (by omega) (by omega)
      omega
    have hreach := h (i - 1) (by omega) hnone
    omega

/-- In 中国abc, when only 中国 is a word, the letters are lost. -/
theorem lost_behind_zhongguo : ¬ ∃ wr ∈ cutRange oneWordDict
    ((decodeRunesInString (lit "中国abc")).getD []), wr.Has 3 := by
  have hrunes : ((decodeRunesInString (lit "中国abc")).getD []).map RuneStr.rune =
      [0x4e2d, 0x56fd, 97, 98, 99] := by decide +kernel
  refine lost_behind_word (p := 0) ?_ ?_ ?_ ?_ ?_
  · rw [hrunes]
    decide +kernel
  · decide
  · rw [hrunes]
    have hunknown : ∀ q ≤ 3, 0 < q → oneWordDict.longest [0x4e2d, 0x56fd, 97, 98, 99] q = 0 := by
      decide +kernel
    exact fun q hq hle => hunknown q hle hq
  · decide +kernel
  · rw [hrunes]
    rintro ⟨p, j, hp, hj, hlt, hword⟩
    have hnone : ∀ p ≤ 3, ∀ j < 5, 3 ≤ j → p < j →
        ¬ oneWordDict.IsWord [0x4e2d, 0x56fd, 97, 98, 99] ⟨p, j⟩ := by decide +kernel
    exact hnone p hp j hword.bounds.2 hj hlt hword

end Loop

end FullSegment

end LightSearch.Cppjieba
