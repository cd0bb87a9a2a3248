import Mathlib.Algebra.Order.Group.Int
import Mathlib.Algebra.Order.Monoid.Unbundled.Basic
import Mathlib.Algebra.Ring.Int.Defs
import Mathlib.Data.List.Pairwise
import Mathlib.Data.List.Sort
import LightSearch.Cppjieba.Trie
import LightSearch.Lib.Decimal

/-!
# The dictionary

A dictionary file has a word, a frequency and a tag on each line. The weight of a word is the logarithm of
its share of all frequencies. The words of user dictionaries come behind them, with a weight of their
own. All of them go into the trie.

`Init` goes on when a word cannot be decoded: its unit has no runes, keeps the weight and the tag of the
line before, and counts in the sum, but the trie does not take it. So what the trie finds under a key is a
unit with that word (`DictTrie.words`), and the last line of a word is the one that counts
(`DictTrie.init_static`).

The numbers are a parameter. The laws that the results ask of their addition hold of doubles too:
rounding keeps it monotone.
-/

set_option autoImplicit false

namespace LightSearch.Cppjieba

open Cxx

variable {W : Type}

/-- The functions of the C library that the dictionary calls. -/
structure DictNumbers (W : Type) where
  atof : Str → W
  ofInt : Int → W
  div : W → W → W
  log : W → W

/-- `limonp::Split`: a separator ends a part, and behind the last one there may be nothing. -/
def split (pattern : Str) : Str → List Str
  | [] => []
  | ch :: src =>
    if ch ∈ pattern then [] :: split pattern src
    else
      match split pattern src with
      | [] => [[ch]]
      | sub :: res => (ch :: sub) :: res

/-- `MakeNodeInfo`: the unit, and whether the word could be decoded. -/
def makeNodeInfo (node_info : DictUnit W) (word : Str) (weight : W) (tag : Str) :
    DictUnit W × Bool :=
  match decodeRunesInString word with
  | some runes => (⟨runes.map RuneStr.rune, weight, tag⟩, true)
  | none => ({ node_info with word := [] }, false)

/-- The dictionary, with what its trie finds. -/
structure DictTrie (W : Type) where
  root : Trie Rune (DictUnit W)
  freq_sum : W
  min_weight : W
  max_weight : W
  median_weight : W
  user_word_default_weight : W
  user_dict_single_chinese_word : List Rune
  words : ∀ {key unit}, root.find? key = some unit → unit.word = key ∧ key ≠ []

/-- `UserWordWeightOption`. -/
inductive UserWordWeightOption where
  | wordWeightMin
  | wordWeightMedian
  | wordWeightMax

/-- A `XCHECK` or an `assert`. -/
def check (what : String) (cond : Prop) [Decidable cond] : Except Fault Unit :=
  if cond then .ok () else .error (.thrown (lit what))

theorem of_check {what : String} {cond : Prop} [Decidable cond] {u : Unit}
    (h : check what cond = .ok u) : cond := by
  unfold check at h
  split at h
  · next hcond => exact hcond
  · cases h

section Load

variable [LinearOrder W] [AddZeroClass W]

/-- One line of `LoadDict`; `node_info` is the unit of the line before. -/
def loadLine (A : DictNumbers W) (node_info : DictUnit W) (line : Str) :
    Except Fault (DictUnit W) :=
  match split (lit " ") line with
  | [word, freq, tag] => .ok (makeNodeInfo node_info word (A.atof freq) tag).1
  | _ => .error (.thrown (lit "split result illegal"))

/-- The loop of `LoadDict`. -/
def loadLines (A : DictNumbers W) : DictUnit W → List Str → Except Fault (List (DictUnit W))
  | _, [] => .ok []
  | node_info, line :: lines => do
    let node_info ← loadLine A node_info line
    let rest ← loadLines A node_info lines
    .ok (node_info :: rest)

/-- `LoadDict`, with what is in the file. The unit before the first line has the weight 0; in the program its
weight is not initialised. -/
def loadDict (A : DictNumbers W) (contents : Option Str) : Except Fault (List (DictUnit W)) :=
  match contents with
  | none => .error (.thrown (lit "open failed"))
  | some contents => loadLines A ⟨[], 0, []⟩ (getlines contents)

/-- `CalcFreqSum`. -/
def calcFreqSum (node_infos : List (DictUnit W)) : W :=
  node_infos.foldl (fun sum unit => sum + unit.weight) 0

/-- `CalculateWeight`. -/
def calculateWeight (A : DictNumbers W) (sum : W) (node_infos : List (DictUnit W)) :
    Except Fault (List (DictUnit W)) := do
  check "sum > 0.0" (0 < sum)
  node_infos.mapM fun node_info => do
    check "node_info.weight > 0.0" (0 < node_info.weight)
    .ok { node_info with weight := A.log (A.div node_info.weight sum) }

/-- The weights in the order of `SetStaticWordWeights`. -/
def sortedWeights (node_infos : List (DictUnit W)) : List W :=
  (node_infos.map DictUnit.weight).insertionSort (· ≤ ·)

/-- `InserUserDictNode`. A line that is not understood gives a unit without a word, and nobody reads
its weight. -/
def inserUserDictNode (A : DictNumbers W) (freq_sum user_word_default_weight : W) (line : Str) :
    DictUnit W :=
  let node_info : DictUnit W := ⟨[], 0, []⟩
  match split (lit " ") line with
  | [word] => (makeNodeInfo node_info word user_word_default_weight []).1
  | [word, tag] => (makeNodeInfo node_info word user_word_default_weight tag).1
  | [word, freq, tag] =>
    (makeNodeInfo node_info word (A.log (A.div (A.ofInt (atoi freq)) freq_sum)) tag).1
  | _ => node_info

/-- `LoadUserDict`: the units of the lines of all the files. -/
def loadUserDict (A : DictNumbers W) (files : Str → Option Str)
    (freq_sum user_word_default_weight : W) (filePaths : Str) : Except Fault (List (DictUnit W)) := do
  let parts ← (split (lit "|;") filePaths).mapM fun path =>
    match files path with
    | none => .error (.thrown (lit "open failed"))
    | some contents =>
      .ok (((getlines contents).filter fun line => line ≠ []).map
        (inserUserDictNode A freq_sum user_word_default_weight))
  .ok parts.flatten

end Load

theorem createTrie_words (units : List (DictUnit W)) {key : List Rune} {unit : DictUnit W}
    (h : (createTrie (units.map DictUnit.word) units).find? key = some unit) :
    unit.word = key ∧ key ≠ [] := by
  rw [find?_createTrie] at h
  split at h
  · cases h
  · next hkey => exact ⟨by simpa using List.find?_some h, hkey⟩

section Init

variable [LinearOrder W] [AddZeroClass W]

/-- What `Init` builds of the units of the dictionary file and of the user dictionaries. -/
def DictTrie.ofUnits (freq_sum user_word_default_weight : W)
    (static_node_infos users : List (DictUnit W)) : DictTrie W :=
  let x := sortedWeights static_node_infos
  let units := static_node_infos ++ users
  { root := createTrie (units.map DictUnit.word) units
    freq_sum
    min_weight := x.headD 0
    max_weight := x.getLastD 0
    median_weight := x.getD (x.length / 2) 0
    user_word_default_weight
    user_dict_single_chinese_word :=
      (users.filter fun node_info => node_info.word.length = 1).flatMap DictUnit.word
    words := createTrie_words units }

/-- `SetStaticWordWeights`: the weight of a user word without a frequency. -/
def userWordDefaultWeight (option : UserWordWeightOption) (node_infos : List (DictUnit W)) : W :=
  let x := sortedWeights node_infos
  match option with
  | .wordWeightMin => x.headD 0
  | .wordWeightMedian => x.getD (x.length / 2) 0
  | .wordWeightMax => x.getLastD 0

/-- `Init`, with the file system. -/
def DictTrie.init (A : DictNumbers W) (files : Str → Option Str) (dict_path user_dict_paths : Str)
    (option : UserWordWeightOption) : Except Fault (DictTrie W) := do
  let loaded ← loadDict A (files dict_path)
  let freq_sum := calcFreqSum loaded
  let static_node_infos ← calculateWeight A freq_sum loaded
  check "!static_node_infos_.empty()" (static_node_infos ≠ [])
  let user_word_default_weight := userWordDefaultWeight option static_node_infos
  let users ←
    if user_dict_paths = [] then .ok []
    else loadUserDict A files freq_sum user_word_default_weight user_dict_paths
  .ok (DictTrie.ofUnits freq_sum user_word_default_weight static_node_infos users)

end Init

/-- A unit at a range is as long as the range. -/
theorem DictTrie.length_word {dict : DictTrie W} {max_word_len : Nat} {keys : List Rune} {i j : Nat}
    {unit : DictUnit W} (h : wordAt dict.root max_word_len keys ⟨i, j⟩ = some unit) :
    unit.word.length = j + 1 - i := by
  obtain ⟨hlt, -, hfind⟩ := wordAt_eq_some.mp h
  rw [(dict.words hfind).1, Span.length_slice hlt]

/-! ## The weights -/

/-- No weight makes a sum greater. -/
structure DictTrie.Deflates [Add W] [LE W] (dict : DictTrie W) : Prop where
  unit : ∀ {key unit}, dict.root.find? key = some unit → ∀ t, t + unit.weight ≤ t
  unknown : ∀ t, t + dict.min_weight ≤ t

section Weights

variable [LinearOrder W]

theorem mem_sortedWeights {units : List (DictUnit W)} {w : W} :
    w ∈ sortedWeights units ↔ ∃ unit ∈ units, unit.weight = w := by
  unfold sortedWeights
  rw [List.mem_insertionSort, List.mem_map]

/-- The least and the greatest weight. -/
theorem sortedWeights_bounds [Zero W] {units : List (DictUnit W)} {unit : DictUnit W}
    (h : unit ∈ units) :
    (sortedWeights units).headD 0 ≤ unit.weight ∧ unit.weight ≤ (sortedWeights units).getLastD 0 := by
  have hmem : unit.weight ∈ sortedWeights units := mem_sortedWeights.mpr ⟨unit, h, rfl⟩
  have hsorted : (sortedWeights units).Pairwise (· ≤ ·) := List.pairwise_insertionSort _ _
  cases hx : sortedWeights units with
  | nil =>
    rw [hx] at hmem
    exact absurd hmem List.not_mem_nil
  | cons w x =>
    rw [hx] at hmem hsorted
    refine ⟨?_, ?_⟩
    · rcases List.mem_cons.mp hmem with heq | hmem
      · exact heq.ge
      · exact (List.pairwise_cons.mp hsorted).1 _ hmem
    · rw [List.getLastD_eq_getLast?, List.getLast?_eq_some_getLast (List.cons_ne_nil w x)]
      exact hsorted.rel_getLast hmem

variable [AddZeroClass W]

/-- What is found is a unit. -/
theorem mem_of_find?_ofUnits {freq_sum default : W} {units users : List (DictUnit W)}
    {key : List Rune} {unit : DictUnit W}
    (h : (DictTrie.ofUnits freq_sum default units users).root.find? key = some unit) :
    unit ∈ units ++ users := by
  have hfind : (if key = [] then none else (units ++ users).reverse.find? fun unit =>
      unit.word = key) = some unit := (find?_createTrie (units ++ users) key).symm.trans h
  split at hfind
  · cases hfind
  · exact List.mem_reverse.mp (List.mem_of_find?_eq_some hfind)

/-- The sum of weights that are positive is not less than each of them. -/
theorem le_calcFreqSum [AddLeftMono W] [AddRightMono W] {units : List (DictUnit W)}
    (hpos : ∀ unit ∈ units, 0 < unit.weight) {unit : DictUnit W} (h : unit ∈ units) :
    unit.weight ≤ calcFreqSum units := by
  have hfold : ∀ (units : List (DictUnit W)) (start : W), 0 ≤ start →
      (∀ unit ∈ units, 0 < unit.weight) →
      start ≤ units.foldl (fun sum unit => sum + unit.weight) start ∧
        ∀ unit ∈ units, unit.weight ≤ units.foldl (fun sum unit => sum + unit.weight) start := by
    intro units
    induction units with
    | nil => exact fun start _ _ => ⟨le_refl _, fun _ hmem => absurd hmem List.not_mem_nil⟩
    | cons first units ih =>
      intro start hstart hpos
      rw [List.forall_mem_cons] at hpos
      have hgrows : start ≤ start + first.weight := le_add_of_nonneg_right hpos.1.le
      have hfirst : first.weight ≤ start + first.weight := le_add_of_nonneg_left hstart
      obtain ⟨hle, hall⟩ := ih (start + first.weight) (hstart.trans hgrows) hpos.2
      rw [List.foldl_cons, List.forall_mem_cons]
      exact ⟨hgrows.trans hle, hfirst.trans hle, hall⟩
  exact (hfold units 0 (le_refl _) hpos).2 unit h

/-- The weights of the words. -/
theorem calculateWeight_eq_ok {A : DictNumbers W} {sum : W} {units units' : List (DictUnit W)}
    (h : calculateWeight A sum units = .ok units') :
    (∀ unit ∈ units, 0 < unit.weight) ∧
      units' = units.map fun unit => { unit with weight := A.log (A.div unit.weight sum) } := by
  obtain ⟨_, -, h⟩ := Except.bind_eq_ok.mp h
  have hpos : ∀ unit ∈ units, 0 < unit.weight := by
    intro unit hunit
    obtain ⟨_, -, hok⟩ := Except.of_mapM_ok h hunit
    obtain ⟨_, hpos, -⟩ := Except.bind_eq_ok.mp hok
    exact of_check hpos
  refine ⟨hpos, ?_⟩
  have hok := Except.mapM_ok (f := fun node_info : DictUnit W => do
    check "node_info.weight > 0.0" (0 < node_info.weight)
    Except.ok { node_info with weight := A.log (A.div node_info.weight sum) })
    (g := fun unit => { unit with weight := A.log (A.div unit.weight sum) }) (l := units)
    fun unit hunit => by
      unfold check
      rw [if_pos (hpos unit hunit)]
      rfl
  exact Except.ok.inj (h.symm.trans hok)

/-- The logarithm of a share is not positive. -/
def DictNumbers.LogOfShare (A : DictNumbers W) : Prop :=
  ∀ x sum, 0 < x → x ≤ sum → ∀ t, t + A.log (A.div x sum) ≤ t

/-- The least weight is the weight of a unit. -/
theorem exists_min_weight {units : List (DictUnit W)} (hne : units ≠ []) :
    ∃ unit ∈ units, unit.weight = (sortedWeights units).headD 0 := by
  apply mem_sortedWeights.mp
  cases hx : sortedWeights units with
  | nil =>
    have hlength : (sortedWeights units).length = units.length := by
      unfold sortedWeights
      rw [List.length_insertionSort, List.length_map]
    rw [hx] at hlength
    exact absurd (List.eq_nil_of_length_eq_zero hlength.symm) hne
  | cons w x => exact List.mem_cons_self

/-- **A dictionary without user dictionaries**: the last line of a word gives its unit, its weight is
between the least and the greatest, and no weight makes a sum greater. -/
theorem DictTrie.init_static [AddLeftMono W] [AddRightMono W] {A : DictNumbers W}
    (hlog : A.LogOfShare) {files : Str → Option Str} {dict_path : Str}
    {option : UserWordWeightOption} {dict : DictTrie W}
    (h : DictTrie.init A files dict_path [] option = .ok dict) :
    ∃ loaded, loadDict A (files dict_path) = .ok loaded ∧
      (∀ key, key ≠ [] → dict.root.find? key =
        (loaded.reverse.find? fun unit => unit.word = key).map fun unit =>
          { unit with weight := A.log (A.div unit.weight (calcFreqSum loaded)) }) ∧
      (∀ key unit, dict.root.find? key = some unit →
        dict.min_weight ≤ unit.weight ∧ unit.weight ≤ dict.max_weight) ∧
      dict.Deflates := by
  unfold DictTrie.init at h
  obtain ⟨loaded, hloaded, h⟩ := Except.bind_eq_ok.mp h
  obtain ⟨units, hunits, h⟩ := Except.bind_eq_ok.mp h
  obtain ⟨_, hne, h⟩ := Except.bind_eq_ok.mp h
  obtain ⟨users, husers, h⟩ := Except.bind_eq_ok.mp h
  obtain rfl := Except.ok.inj husers
  obtain ⟨hpos, rfl⟩ := calculateWeight_eq_ok hunits
  have hne := of_check hne
  obtain rfl := Except.ok.inj h
  set weighted := fun unit : DictUnit W =>
    { unit with weight := A.log (A.div unit.weight (calcFreqSum loaded)) } with hweighted
  have hdeflates : ∀ unit ∈ loaded.map weighted, ∀ t, t + unit.weight ≤ t := by
    intro unit hunit t
    obtain ⟨unit₀, hunit₀, rfl⟩ := List.mem_map.mp hunit
    exact hlog _ _ (hpos unit₀ hunit₀) (le_calcFreqSum hpos hunit₀) t
  have hmem : ∀ {key unit}, (DictTrie.ofUnits (calcFreqSum loaded)
      (userWordDefaultWeight option (loaded.map weighted)) (loaded.map weighted) []).root.find? key =
        some unit → unit ∈ loaded.map weighted := by
    intro key unit hfind
    have h := mem_of_find?_ofUnits hfind
    rwa [List.append_nil] at h
  refine ⟨loaded, hloaded, fun key hkey => ?_, fun key unit hfind => sortedWeights_bounds (hmem hfind),
    fun hfind => hdeflates _ (hmem hfind), ?_⟩
  · have hfind := find?_createTrie (loaded.map weighted) key
    rw [if_neg hkey, ← List.map_reverse, List.find?_map] at hfind
    unfold DictTrie.ofUnits
    dsimp only
    rw [List.append_nil, hfind]
    rfl
  · obtain ⟨unit, hunit, hmin⟩ := exists_min_weight hne
    intro t
    show t + (sortedWeights (loaded.map weighted)).headD 0 ≤ t
    rw [← hmin]
    exact hdeflates unit hunit t

end Weights

/-! ## A dictionary with one word -/

/-- Whole numbers and shares in units of 1/1024; the binary logarithm is rounded down. -/
def fixedNumbers : DictNumbers ℤ where
  atof := atoi
  ofInt n := n
  div x y := 1024 * x / y
  log x := if x < 1 then -11 else x.toNat.log2 - 10

theorem logOfShare_fixedNumbers : fixedNumbers.LogOfShare := by
  intro x sum hpos hle t
  have hshare : 1024 * x / sum < 1025 := Int.ediv_lt_of_lt_mul (hpos.trans_le hle) (by omega)
  have hlog : fixedNumbers.log (1024 * x / sum) ≤ 0 := by
    show (if 1024 * x / sum < 1 then (-11 : ℤ) else (1024 * x / sum).toNat.log2 - 10) ≤ 0
    split
    · decide
    · have hlt : (1024 * x / sum).toNat.log2 < 11 := (Nat.log2_lt (by omega)).mpr (by omega)
      omega
  exact add_le_of_nonpos_right hlog

/-- 中国. -/
def zhongguo : List Rune := [0x4e2d, 0x56fd]

def oneWordDict : DictTrie ℤ := .ofUnits 1 0 [⟨zhongguo, 0, lit "n"⟩] []

example : DictTrie.init fixedNumbers (fun _ => some (lit "中国 1 n\n"))
    (lit "jieba.dict.utf8") [] .wordWeightMedian = .ok oneWordDict := rfl

/-- What the dictionary has under a key. -/
theorem find?_oneWordDict (key : List Rune) : oneWordDict.root.find? key =
    if key = zhongguo then some ⟨zhongguo, 0, lit "n"⟩ else none := by
  refine (find?_createTrie [⟨zhongguo, 0, lit "n"⟩] key).trans ?_
  by_cases hword : key = zhongguo
  · subst hword
    rfl
  · rw [if_neg hword]
    split
    · rfl
    · simp [Ne.symm hword]

/-! ## A dictionary with three words -/

/-- 国人. -/
def guoren : List Rune := [0x56fd, 0x4eba]

/-- The units of three words; 中国 has two. -/
def threeWordUnits : List (DictUnit ℤ) :=
  [⟨zhongguo, -3, lit "n"⟩, ⟨guoren, -1, lit "n"⟩, ⟨zhongguo, -2, lit "ns"⟩,
    ⟨[0x4eba, 0x6c11], -3, lit "n"⟩]

def threeWordDict : DictTrie ℤ := .ofUnits 8 (-2) threeWordUnits []

theorem init_threeWordDict : DictTrie.init fixedNumbers
    (fun _ => some (lit "中国 1 n\n国人 4 n\n中国 2 ns\n人民 1 n\n")) (lit "jieba.dict.utf8") []
      .wordWeightMedian = .ok threeWordDict := rfl

theorem deflates_threeWordDict : threeWordDict.Deflates where
  unit {key unit} h t := by
    have hweights : ∀ unit ∈ threeWordUnits ++ [], unit.weight ≤ 0 := by decide
    exact add_le_of_nonpos_right (hweights unit (mem_of_find?_ofUnits h))
  unknown t := by
    have hmin : threeWordDict.min_weight = -3 := rfl
    rw [hmin]
    omega

/-- The second line of 中国 counts. -/
theorem init_static_threeWordDict : threeWordDict.Deflates ∧
    threeWordDict.root.find? zhongguo = some ⟨zhongguo, -2, lit "ns"⟩ ∧
    ∀ key unit, threeWordDict.root.find? key = some unit → -3 ≤ unit.weight ∧ unit.weight ≤ -1 := by
  obtain ⟨loaded, hloaded, hfind, hbounds, hdeflates⟩ :=
    DictTrie.init_static logOfShare_fixedNumbers init_threeWordDict
  refine ⟨hdeflates, ?_, hbounds⟩
  obtain rfl := Except.ok.inj hloaded
  exact hfind zhongguo (List.cons_ne_nil _ _)

end LightSearch.Cppjieba
