import Mathlib.Algebra.Order.Monoid.Unbundled.Basic
import LightSearch.Cppjieba.DictTrie
import LightSearch.Cppjieba.SegmentBase
import LightSearch.Lib.BestPath

/-!
# The segmentation with the greatest weight

`MPSegment` cuts a range into words of the dictionary and single runes so that the weights add up to as
much as they can. `CalcDP` goes over the runes from the last to the first and keeps for each of them what
is best from there on; `CutByDag` follows the words that it has kept.

Whatever the weights are, the words tile the range (`segmentation_cutRange`). When no weight makes a sum
greater and some segmentation is above `MIN_DOUBLE`, there is none with a greater weight
(`cutRange_best`): the values of `CalcDP` are those of the best ways through the places of the range.
Weights are added as the program adds them, so rounding does no harm.
-/

set_option autoImplicit false

namespace LightSearch.Cppjieba

open Cxx

variable {W : Type}

namespace MPSegment

section Model

variable [LinearOrder W] [AddZeroClass W]

/-- `p->weight`, or the least weight for a rune that is no word. -/
def weightOf (dict : DictTrie W) : Option (DictUnit W) → W
  | some p => p.weight
  | none => dict.min_weight

/-- `val` for one of the places of the rune `i`, with the runes behind it. -/
def nextVal (dict : DictTrie W) (i : Nat) (behind : List (Dag W))
    (next : Nat × Option (DictUnit W)) : W :=
  let val := match behind[next.1 - i]? with
    | some dag => 0 + dag.weight
    | none => 0
  val + weightOf dict next.2

/-- `CalcDP` from the rune `i` on; `minDouble` is `MIN_DOUBLE`. -/
def calcDP (minDouble : W) (dict : DictTrie W) : Nat → List (Dag W) → List (Dag W)
  | _, [] => []
  | i, dag :: dags =>
    let behind := calcDP minDouble dict (i + 1) dags
    let best := BestPath.best minDouble (nextVal dict i behind) dag.nexts
    { dag with pInfo := best.2.bind Prod.snd, weight := best.1 } :: behind

/-- `CutByDag` from the rune `i` on, when so many runes still belong to the word before. -/
def cutByDag : Nat → Nat → List (Dag W) → List WordRange
  | _, _, [] => []
  | i, skip + 1, _ :: dags => cutByDag (i + 1) skip dags
  | i, 0, dag :: dags =>
    match dag.pInfo with
    | some p => ⟨i, i + p.word.length - 1⟩ :: cutByDag (i + 1) (p.word.length - 1) dags
    | none => ⟨i, i⟩ :: cutByDag (i + 1) 0 dags

/-- `Cut` of a range of runes. -/
def cutRange (minDouble : W) (dict : DictTrie W) (max_word_len : Nat) (runes : List RuneStr) :
    List WordRange :=
  cutByDag 0 0 (calcDP minDouble dict 0 (findDags dict.root max_word_len runes))

/-- `Cut` of a sentence. -/
def cut (minDouble : W) (dict : DictTrie W) (max_word_len : Nat) (sentence : Str) :
    Except Fault (List Str) :=
  (cutSentence symbols (cutRange minDouble dict max_word_len) sentence).map getStringsFromWords

end Model

/-! ## Segmentations -/

section Spec

variable (dict : DictTrie W) (max_word_len : Nat) (keys : List Rune)

/-- Words of the dictionary and single runes, one behind the other. -/
structure Segmentation (spans : List WordRange) : Prop where
  tiles : Span.Tiles 0 keys.length spans
  pieces : ∀ wr ∈ spans, (wordAt dict.root max_word_len keys wr).isSome ∨ wr.left = wr.right

/-- The weights of the words, added up from the last to the first. -/
def total [Add W] [Zero W] (spans : List WordRange) : W :=
  spans.foldr (fun wr t => t + weightOf dict (wordAt dict.root max_word_len keys wr)) 0

end Spec

/-! ## The ways through a range -/

section Ways

variable [AddZeroClass W] (dict : DictTrie W) (max_word_len : Nat) (keys : List Rune)

/-- From a rune to behind each of its words. -/
def edges (i : Nat) : List (Nat × (W → W)) :=
  (nextsAt dict.root max_word_len keys i).map fun next =>
    (next.1 + 1, fun t => t + weightOf dict next.2)

/-- The end of the range. -/
def stop (i : Nat) : Option W := if i < keys.length then none else some 0

end Ways

/-- The ranges between the nodes of a way. -/
def between : List Nat → List WordRange
  | i :: i' :: ns => ⟨i, i' - 1⟩ :: between (i' :: ns)
  | _ => []

section Ways

variable {dict : DictTrie W} {max_word_len : Nat} {keys : List Rune} {i : Nat}

/-- A place is inside the range. -/
theorem place_bounds (hi : i < keys.length) {j : Nat}
    (h : (wordAt dict.root max_word_len keys ⟨i, j⟩).isSome ∨ j = i) : i ≤ j ∧ j < keys.length := by
  rcases h with hsome | rfl
  · obtain ⟨unit, hunit⟩ := Option.isSome_iff_exists.mp hsome
    exact wordAt_bounds hunit
  · exact ⟨Nat.le_refl _, hi⟩

variable [AddZeroClass W]

theorem stop_eq_none : stop (W := W) keys i = none ↔ i < keys.length := by
  simp [stop]

theorem stop_eq_some {value : W} : stop keys i = some value ↔ keys.length ≤ i ∧ value = 0 := by
  simp [stop, eq_comm]

/-- An edge is a word, or a rune alone. -/
theorem mem_edges {i' : Nat} {w : W → W} :
    (i', w) ∈ edges dict max_word_len keys i ↔
      ∃ j, i' = j + 1 ∧ ((wordAt dict.root max_word_len keys ⟨i, j⟩).isSome ∨ j = i) ∧
        w = fun t => t + weightOf dict (wordAt dict.root max_word_len keys ⟨i, j⟩) := by
  unfold edges
  rw [List.mem_map]
  constructor
  · rintro ⟨⟨j, found⟩, hmem, heq⟩
    obtain ⟨rfl, rfl⟩ := Prod.mk.inj heq
    obtain ⟨rfl, hor⟩ := mem_nextsAt.mp hmem
    exact ⟨j, rfl, hor, rfl⟩
  · rintro ⟨j, rfl, hor, rfl⟩
    exact ⟨(j, _), mem_nextsAt.mpr ⟨rfl, hor⟩, rfl⟩

/-- **A way is a segmentation** with its total. -/
theorem segmentation_of_way {ns : List Nat} {t : W}
    (h : BestPath.Way (edges dict max_word_len keys) (stop keys) i ns t) (hle : i ≤ keys.length) :
    Span.Tiles i keys.length (between ns) ∧
      (∀ wr ∈ between ns, (wordAt dict.root max_word_len keys wr).isSome ∨ wr.left = wr.right) ∧
      total dict max_word_len keys (between ns) = t := by
  induction h with
  | @stop i value hstop =>
    obtain ⟨hge, rfl⟩ := stop_eq_some.mp hstop
    obtain rfl := Nat.le_antisymm hle hge
    exact ⟨.nil _, fun _ hmem => absurd hmem List.not_mem_nil, rfl⟩
  | @step i i' w t ns hstop hedge hway ih =>
    have hi := stop_eq_none.mp hstop
    obtain ⟨j, rfl, hplace, rfl⟩ := mem_edges.mp hedge
    obtain ⟨hij, hlt⟩ := place_bounds hi hplace
    obtain ⟨htiles, hpieces, htotal⟩ := ih hlt
    obtain ⟨rest, rfl⟩ := hway.exists_cons
    refine ⟨.cons hij htiles, List.forall_mem_cons.mpr ⟨hplace.imp_right Eq.symm, hpieces⟩, ?_⟩
    rw [← htotal]
    rfl

/-- **A segmentation is a way.** -/
theorem way_of_segmentation {spans : List WordRange} (htiles : Span.Tiles i keys.length spans)
    (hpieces : ∀ wr ∈ spans, (wordAt dict.root max_word_len keys wr).isSome ∨ wr.left = wr.right) :
    ∃ ns, BestPath.Way (edges dict max_word_len keys) (stop keys) i ns
      (total dict max_word_len keys spans) := by
  generalize hn : keys.length = n at htiles
  induction htiles with
  | nil a => exact ⟨_, .stop (stop_eq_some.mpr ⟨hn.le, rfl⟩)⟩
  | @cons a b right rest hle hrest ih =>
    rw [List.forall_mem_cons] at hpieces
    obtain ⟨ns, hway⟩ := ih hpieces.2 hn
    have ha : a < keys.length := by
      have hend := hrest.le
      omega
    have hedge := mem_edges.mpr ⟨right, rfl, hpieces.1.imp_right Eq.symm, rfl⟩
    have hstep := BestPath.Way.step (stop_eq_none.mpr ha) hedge hway
    exact ⟨_, hstep⟩

end Ways

/-! ## What is computed -/

section Dags

variable [LinearOrder W] [AddZeroClass W] {minDouble : W} {dict : DictTrie W} {max_word_len : Nat}
  {runes : List RuneStr} {i : Nat}

/-- The range after `CalcDP`. -/
def dags (minDouble : W) (dict : DictTrie W) (max_word_len : Nat) (runes : List RuneStr) :
    List (Dag W) :=
  calcDP minDouble dict 0 (findDags dict.root max_word_len runes)

/-- What a rune is worth: 0 at the end of the range. -/
def worth (dags : List (Dag W)) (i : Nat) : W :=
  match dags[i]? with
  | some dag => dag.weight
  | none => 0

/-- What a place of a rune makes of what stands behind it. -/
def value (dict : DictTrie W) (dags : List (Dag W)) (next : Nat × Option (DictUnit W)) : W :=
  worth dags (next.1 + 1) + weightOf dict next.2

/-- Where the word of a rune ends. -/
def choose (dags : List (Dag W)) (i : Nat) : Nat :=
  match dags[i]?.bind Dag.pInfo with
  | some p => i + p.word.length
  | none => i + 1

theorem length_calcDP (minDouble : W) (dict : DictTrie W) (i : Nat) (l : List (Dag W)) :
    (calcDP minDouble dict i l).length = l.length := by
  induction l generalizing i with
  | nil => rfl
  | cons dag l ih => rw [calcDP, List.length_cons, List.length_cons, ih]

theorem length_dags (minDouble : W) (dict : DictTrie W) (max_word_len : Nat) (runes : List RuneStr) :
    (dags minDouble dict max_word_len runes).length = runes.length := by
  unfold dags
  rw [length_calcDP, findDags_eq, List.length_map, List.length_zipIdx]

/-- One round of `CalcDP`, in the whole. -/
theorem getElem?_calcDP {l : List (Dag W)} {k : Nat} {dag : Dag W} (hdag : l[k]? = some dag) :
    ∃ dag', (calcDP minDouble dict i l)[k]? = some dag' ∧
      (dag'.weight, dag'.pInfo) = (fun best : W × Option (Nat × Option (DictUnit W)) =>
        (best.1, best.2.bind Prod.snd)) (BestPath.best minDouble
          (nextVal dict (i + k) ((calcDP minDouble dict i l).drop (k + 1))) dag.nexts) := by
  induction l generalizing i k with
  | nil => cases hdag
  | cons first l ih =>
    rw [calcDP]
    cases k with
    | zero =>
      obtain rfl := Option.some.inj hdag
      exact ⟨_, rfl, rfl⟩
    | succ k =>
      have hsum : i + 1 + k = i + (k + 1) := by omega
      obtain ⟨dag', hdag', heq⟩ := ih (i := i + 1) hdag
      rw [hsum] at heq
      exact ⟨dag', hdag', heq⟩

/-- **What is kept of a rune**: the best of its places, by what stands behind them. -/
theorem getElem?_dags (hi : i < runes.length) :
    ∃ dag, (dags minDouble dict max_word_len runes)[i]? = some dag ∧
      (dag.weight, dag.pInfo) = (fun best : W × Option (Nat × Option (DictUnit W)) =>
        (best.1, best.2.bind Prod.snd)) (BestPath.best minDouble
          (value dict (dags minDouble dict max_word_len runes))
          (nextsAt dict.root max_word_len (runes.map RuneStr.rune) i)) := by
  have hlen : i < (runes.map RuneStr.rune).length := by rwa [List.length_map]
  have hfind : (findDags dict.root max_word_len runes)[i]? =
      some ⟨runes[i], nextsAt dict.root max_word_len (runes.map RuneStr.rune) i, none, 0⟩ := by
    rw [findDags_eq, List.getElem?_map, List.getElem?_zipIdx, List.getElem?_eq_getElem hi, Nat.zero_add]
    rfl
  obtain ⟨dag, hdag, heq⟩ := @getElem?_calcDP W _ _ minDouble dict 0 _ i _ hfind
  refine ⟨dag, hdag, heq.trans ?_⟩
  rw [Nat.zero_add]
  congr 1
  refine BestPath.best_congr fun ⟨j, found⟩ hnext => ?_
  obtain ⟨rfl, hplace⟩ := mem_nextsAt.mp hnext
  obtain ⟨hij, -⟩ := place_bounds hlen hplace
  have hsum : i + 1 + (j - i) = j + 1 := by omega
  unfold nextVal value worth
  dsimp only
  rw [List.getElem?_drop, hsum]
  simp only [zero_add]
  rfl

/-- A remembered word is a word of the rune, and otherwise the rune stands alone. -/
theorem choose_spec (hi : i < runes.length) :
    ∃ j, choose (dags minDouble dict max_word_len runes) i = j + 1 ∧
      ((wordAt dict.root max_word_len (runes.map RuneStr.rune) ⟨i, j⟩).isSome ∨ j = i) ∧
      (minDouble < worth (dags minDouble dict max_word_len runes) i →
        worth (dags minDouble dict max_word_len runes) i =
          worth (dags minDouble dict max_word_len runes) (j + 1) + weightOf dict
            (wordAt dict.root max_word_len (runes.map RuneStr.rune) ⟨i, j⟩)) := by
  have hlen : i < (runes.map RuneStr.rune).length := by rwa [List.length_map]
  obtain ⟨dag, hdag, heq⟩ := @getElem?_dags W _ _ minDouble dict max_word_len runes i hi
  obtain ⟨hweight, hinfo⟩ := Prod.mk.inj heq
  have hworth : worth (dags minDouble dict max_word_len runes) i = dag.weight := by
    unfold worth
    rw [hdag]
  have hchoose : choose (dags minDouble dict max_word_len runes) i =
      match dag.pInfo with
      | some p => i + p.word.length
      | none => i + 1 := by
    unfold choose
    rw [hdag]
    rfl
  rcases BestPath.best_cases minDouble (value dict (dags minDouble dict max_word_len runes))
      (nextsAt dict.root max_word_len (runes.map RuneStr.rune) i) with
    hnone | ⟨⟨j, found⟩, hmem, hbest, -⟩
  · rw [hnone] at hinfo hweight
    rw [hworth, hchoose, hinfo, hweight]
    exact ⟨i, rfl, .inr rfl, fun habove => absurd habove (lt_irrefl _)⟩
  · rw [hbest] at hinfo hweight
    obtain ⟨hword, hplace⟩ := mem_nextsAt.mp hmem
    refine ⟨j, ?_, hword.symm ▸ hplace, fun _ => ?_⟩
    · rw [hchoose, hinfo, Option.bind_some]
      cases found with
      | none => rw [hplace.resolve_left (by simp)]
      | some unit =>
        obtain ⟨hij, -⟩ := wordAt_bounds hword
        show i + unit.word.length = j + 1
        rw [DictTrie.length_word hword]
        omega
    · rw [hworth, hweight, hword]
      rfl

/-- **The values of `CalcDP`** are those of the best ways. -/
theorem worth_dags : BestPath.Worth (edges dict max_word_len (runes.map RuneStr.rune))
    (stop (runes.map RuneStr.rune)) minDouble (choose (dags minDouble dict max_word_len runes))
    (worth (dags minDouble dict max_word_len runes)) where
  ends := by
    intro i value hstop
    obtain ⟨hge, rfl⟩ := stop_eq_some.mp hstop
    rw [List.length_map] at hge
    unfold worth
    rw [List.getElem?_eq_none (length_dags minDouble dict max_word_len runes ▸ hge)]
  edge := by
    intro i hstop e hedge
    have hlen := stop_eq_none.mp hstop
    have hi : i < runes.length := by rwa [List.length_map] at hlen
    obtain ⟨dag, hdag, heq⟩ := @getElem?_dags W _ _ minDouble dict max_word_len runes i hi
    obtain ⟨hweight, -⟩ := Prod.mk.inj heq
    obtain ⟨next, hnext, rfl⟩ := List.mem_map.mp hedge
    have hworth : worth (dags minDouble dict max_word_len runes) i = dag.weight := by
      unfold worth
      rw [hdag]
    rw [hworth, hweight]
    exact BestPath.le_best minDouble (value dict (dags minDouble dict max_word_len runes)) hnext
  chosen := by
    intro i hstop habove
    have hlen := stop_eq_none.mp hstop
    have hi : i < runes.length := by rwa [List.length_map] at hlen
    obtain ⟨j, hchoose, hplace, hworth⟩ := @choose_spec W _ _ minDouble dict max_word_len runes i hi
    exact ⟨_, mem_edges.mpr ⟨j, hchoose, hplace, rfl⟩, hchoose ▸ hworth habove⟩

/-! ### The words -/

omit [LinearOrder W] [AddZeroClass W] in
theorem cutByDag_skip (i skip : Nat) (l : List (Dag W)) :
    cutByDag i skip l = cutByDag (i + skip) 0 (l.drop skip) := by
  induction skip generalizing i l with
  | zero => rfl
  | succ skip ih =>
    cases l with
    | nil => rfl
    | cons dag l =>
      have hsum : i + 1 + skip = i + (skip + 1) := by omega
      rw [cutByDag, ih, hsum, List.drop_succ_cons]

/-- **`CutByDag` follows** what `CalcDP` has kept. -/
theorem follows_cutByDag (hle : i ≤ runes.length) :
    ∃ ns, BestPath.Follows (stop (W := W) (runes.map RuneStr.rune))
        (choose (dags minDouble dict max_word_len runes)) i ns ∧
      cutByDag i 0 ((dags minDouble dict max_word_len runes).drop i) = between ns := by
  induction hn : runes.length - i using Nat.strongRecOn generalizing i with
  | ind n ih =>
    rcases Nat.lt_or_eq_of_le hle with hi | rfl
    · have hlen : i < (runes.map RuneStr.rune).length := by rwa [List.length_map]
      obtain ⟨j, hchoose, hplace, -⟩ := @choose_spec W _ _ minDouble dict max_word_len runes i hi
      obtain ⟨hij, hj⟩ := place_bounds hlen hplace
      rw [List.length_map] at hj
      obtain ⟨ns, hfollows, hcut⟩ := ih (runes.length - (j + 1)) (by omega) hj rfl
      refine ⟨i :: ns, .step (stop_eq_none.mpr hlen) (hchoose ▸ hfollows), ?_⟩
      obtain ⟨rest, rfl⟩ := hfollows.exists_cons
      have hlength := length_dags minDouble dict max_word_len runes
      have hdrop := List.drop_eq_getElem_cons (hlength ▸ hi)
      have hinfo : choose (dags minDouble dict max_word_len runes) i =
          match (dags minDouble dict max_word_len runes)[i].pInfo with
          | some p => i + p.word.length
          | none => i + 1 := by
        unfold choose
        rw [List.getElem?_eq_getElem (hlength ▸ hi)]
        rfl
      have hbetween : between (i :: (j + 1) :: rest) = ⟨i, j⟩ :: between ((j + 1) :: rest) := rfl
      rw [hdrop, cutByDag, hbetween, ← hcut]
      cases hp : (dags minDouble dict max_word_len runes)[i].pInfo with
      | none =>
        rw [hp, hchoose] at hinfo
        obtain rfl : j = i := Nat.succ.inj hinfo
        rfl
      | some p =>
        rw [hp, hchoose] at hinfo
        replace hinfo : j + 1 = i + p.word.length := hinfo
        dsimp only
        have hskip : i + 1 + (p.word.length - 1) = j + 1 := by omega
        have hlast : i + p.word.length - 1 = j := by omega
        rw [cutByDag_skip, List.drop_drop, hskip, hlast]
    · refine ⟨[runes.length], .stop (stop_eq_some.mpr ⟨by rw [List.length_map], rfl⟩), ?_⟩
      rw [List.drop_eq_nil_of_le (length_dags minDouble dict max_word_len runes).le]
      rfl

/-- What is followed is cut into words and single runes. -/
theorem segmentation_of_follows {ns : List Nat}
    (h : BestPath.Follows (stop (W := W) (runes.map RuneStr.rune))
      (choose (dags minDouble dict max_word_len runes)) i ns) (hle : i ≤ runes.length) :
    Span.Tiles i runes.length (between ns) ∧ ∀ wr ∈ between ns,
      (wordAt dict.root max_word_len (runes.map RuneStr.rune) wr).isSome ∨ wr.left = wr.right := by
  induction h with
  | @stop i value hstop =>
    have hge := (stop_eq_some.mp hstop).1
    rw [List.length_map] at hge
    obtain rfl := Nat.le_antisymm hle hge
    exact ⟨.nil _, fun _ hmem => absurd hmem List.not_mem_nil⟩
  | @step i ns hstop hrest ih =>
    have hlen := stop_eq_none.mp hstop
    have hi : i < runes.length := by rwa [List.length_map] at hlen
    obtain ⟨j, hchoose, hplace, -⟩ := @choose_spec W _ _ minDouble dict max_word_len runes i hi
    obtain ⟨hij, hj⟩ := place_bounds hlen hplace
    rw [List.length_map] at hj
    obtain ⟨rest, rfl⟩ := hrest.exists_cons
    obtain ⟨htiles, hpieces⟩ := ih (hchoose ▸ hj)
    rw [hchoose] at htiles hpieces ⊢
    exact ⟨.cons hij htiles, List.forall_mem_cons.mpr ⟨hplace.imp_right Eq.symm, hpieces⟩⟩

/-- **Words of the dictionary and single runes**, whatever the weights are. -/
theorem segmentation_cutRange (minDouble : W) (dict : DictTrie W) (max_word_len : Nat)
    (runes : List RuneStr) :
    Segmentation dict max_word_len (runes.map RuneStr.rune)
      (cutRange minDouble dict max_word_len runes) := by
  obtain ⟨ns, hfollows, hcut⟩ :=
    @follows_cutByDag W _ _ minDouble dict max_word_len runes 0 (Nat.zero_le _)
  have hcut : cutRange minDouble dict max_word_len runes = between ns := hcut
  obtain ⟨htiles, hpieces⟩ := segmentation_of_follows hfollows (Nat.zero_le _)
  rw [hcut]
  exact ⟨by rwa [List.length_map], hpieces⟩

/-- **The greatest weight**: when no weight makes a sum greater and some segmentation is above
`MIN_DOUBLE`, the words weigh at least as much as every other segmentation. -/
theorem cutRange_best [AddRightMono W] (hdict : dict.Deflates) {spans : List WordRange}
    (hspans : Segmentation dict max_word_len (runes.map RuneStr.rune) spans)
    (habove : minDouble < total dict max_word_len (runes.map RuneStr.rune) spans) :
    let words := cutRange minDouble dict max_word_len runes
    Segmentation dict max_word_len (runes.map RuneStr.rune) words ∧
      ∀ spans', Segmentation dict max_word_len (runes.map RuneStr.rune) spans' →
        total dict max_word_len (runes.map RuneStr.rune) spans' ≤
          total dict max_word_len (runes.map RuneStr.rune) words := by
  obtain ⟨ns, hfollows, hcut⟩ :=
    @follows_cutByDag W _ _ minDouble dict max_word_len runes 0 (Nat.zero_le _)
  have hcut : cutRange minDouble dict max_word_len runes = between ns := hcut
  have hmono : ∀ i, ∀ e ∈ edges dict max_word_len (runes.map RuneStr.rune) i, Monotone e.2 := by
    intro i e he
    obtain ⟨next, -, rfl⟩ := List.mem_map.mp he
    intro t t' hle
    dsimp only
    gcongr
  have hneg : ∀ i, ∀ e ∈ edges dict max_word_len (runes.map RuneStr.rune) i, ∀ t, e.2 t ≤ t := by
    intro i e he t
    obtain ⟨⟨j, found⟩, hnext, rfl⟩ := List.mem_map.mp he
    cases found with
    | none => exact hdict.unknown t
    | some unit => exact hdict.unit (wordAt_eq_some.mp (mem_nextsAt_some.mp hnext)).2.2 t
  obtain ⟨_, hway⟩ := way_of_segmentation hspans.tiles hspans.pieces
  obtain ⟨hbest, hall⟩ := worth_dags.best hmono hneg hfollows hway habove
  obtain ⟨-, -, htotal⟩ := segmentation_of_way hbest (Nat.zero_le _)
  refine ⟨segmentation_cutRange minDouble dict max_word_len runes, fun spans' hspans' => ?_⟩
  obtain ⟨_, hway'⟩ := way_of_segmentation hspans'.tiles hspans'.pieces
  rw [hcut, htotal]
  exact hall _ _ hway'

/-- 中国人: the heavier 国人 is preferred to 中国. -/
theorem cutRange_best_zhongguo :
    let runes := (decodeRunesInString (lit "中国人")).getD []
    cutRange (-1000) threeWordDict maxWordLength runes = [⟨0, 0⟩, ⟨1, 2⟩] ∧
      Segmentation threeWordDict maxWordLength (runes.map RuneStr.rune) [⟨0, 0⟩, ⟨1, 2⟩] ∧
      ∀ spans', Segmentation threeWordDict maxWordLength (runes.map RuneStr.rune) spans' →
        total threeWordDict maxWordLength (runes.map RuneStr.rune) spans' ≤ -4 := by
  intro runes
  have hcut : cutRange (-1000) threeWordDict maxWordLength runes = [⟨0, 0⟩, ⟨1, 2⟩] := by decide +kernel
  have htotal : total threeWordDict maxWordLength (runes.map RuneStr.rune) [⟨0, 0⟩, ⟨1, 2⟩] = -4 := by
    decide +kernel
  have hspans : Segmentation threeWordDict maxWordLength (runes.map RuneStr.rune) [⟨0, 1⟩, ⟨2, 2⟩] :=
    ⟨.cons (by decide) (.cons (by decide) (.nil _)), by decide +kernel⟩
  have habove : -1000 < total threeWordDict maxWordLength (runes.map RuneStr.rune) [⟨0, 1⟩, ⟨2, 2⟩] := by
    decide +kernel
  obtain ⟨hbest, hall⟩ := cutRange_best deflates_threeWordDict hspans habove
  rw [hcut] at hbest hall
  rw [htotal] at hall
  exact ⟨hcut, hbest, hall⟩

end Dags

end MPSegment

end LightSearch.Cppjieba
