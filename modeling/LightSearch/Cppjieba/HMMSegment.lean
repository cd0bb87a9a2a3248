import Mathlib.Algebra.Order.Monoid.Unbundled.Basic
import LightSearch.Cppjieba.DictTrie
import LightSearch.Cppjieba.SegmentBase
import LightSearch.Lib.BestPath
import LightSearch.Lib.Container

/-!
# The segmentation by a hidden Markov model

`HMMSegment` cuts runes that are in no dictionary. Letters and digits are taken together by two rules; of
every other stretch `Viterbi` says for each rune whether it begins a word, is inside of one, ends one or
is one, and a word ends where the tag says so.

`Viterbi` fills a table column by column, and goes back from the better of the tags `E` and `S` of the
last rune. Its tags have the greatest probability of all that end like that (`viterbi_best`), when some
of them is above `MIN_DOUBLE`. Whatever the model is, the words tile the range (`cutRange_tiles`).
-/

set_option autoImplicit false

namespace LightSearch.Cppjieba

open Cxx HashMap

variable {W : Type}

/-- The tags: a rune begins a word, ends one, is in the middle of one, or is one. -/
inductive Status where
  | B
  | E
  | M
  | S
  deriving DecidableEq

/-- The tags in the order of their numbers. -/
def Status.all : List Status := [.B, .E, .M, .S]

theorem Status.mem_all (y : Status) : y ∈ Status.all := by
  cases y <;> decide

/-- `status % 2`: a word ends here. -/
def Status.ends : Status → Bool
  | .E | .S => true
  | .B | .M => false

/-- `HMMModel`, with what it has loaded. -/
structure HMMModel (W : Type) where
  startProb : Status → W
  transProb : Status → Status → W
  emitProb : Status → Map Rune W

/-- `GetEmitProb`. -/
def HMMModel.getEmitProb (model : HMMModel W) (y : Status) (key : Rune) (defVal : W) : W :=
  ((model.emitProb y).lookup key).getD defVal

namespace HMMSegment

/-- A column of the tables `weight` and `path`, with an entry for each tag. The first column has no
path. -/
structure Column (W : Type) where
  B : W × Option Status
  E : W × Option Status
  M : W × Option Status
  S : W × Option Status

def Column.get (c : Column W) : Status → W × Option Status
  | .B => c.B
  | .E => c.E
  | .M => c.M
  | .S => c.S

def Column.ofFn (f : Status → W × Option Status) : Column W := ⟨f .B, f .E, f .M, f .S⟩

theorem Column.get_ofFn (f : Status → W × Option Status) (y : Status) : (Column.ofFn f).get y = f y := by
  cases y <;> rfl

section Model

variable [LinearOrder W] [Add W]

/-- The column of the first rune; `minDouble` is `MIN_DOUBLE`. -/
def firstColumn (minDouble : W) (model : HMMModel W) (r : Rune) : Column W :=
  Column.ofFn fun y => (model.startProb y + model.getEmitProb y r minDouble, none)

/-- The column of a rune behind another one. -/
def nextColumn (minDouble : W) (model : HMMModel W) (before : Column W) (r : Rune) : Column W :=
  Column.ofFn fun y =>
    let emitProb := model.getEmitProb y r minDouble
    let best := BestPath.best minDouble
      (fun preY => (before.get preY).1 + model.transProb preY y + emitProb) Status.all
    -- a path that is not found counts as `E`
    (best.1, some (best.2.getD .E))

/-- The columns after one rune more, the last one first. -/
def pushColumn (minDouble : W) (model : HMMModel W) (columns : List (Column W)) (r : Rune) :
    List (Column W) :=
  match columns with
  | [] => [firstColumn minDouble model r]
  | before :: columns => nextColumn minDouble model before r :: before :: columns

/-- The way back through the columns, from the last one on. -/
def goBack : Status → List (Column W) → List Status
  | _, [] => []
  | stat, c :: columns =>
    stat :: match (c.get stat).2 with
      | some stat => goBack stat columns
      | none => []

/-- `Viterbi`; the stretch is not empty. -/
def viterbi (minDouble : W) (model : HMMModel W) (keys : List Rune) : List Status :=
  let columns := keys.foldl (pushColumn minDouble model) []
  match columns with
  | [] => []
  | last :: _ =>
    let stat := if (last.get .S).1 ≤ (last.get .E).1 then Status.E else Status.S
    (goBack stat columns).reverse

/-- The loop of `InternalCut` from the rune `i` on; a word begins at `left`. -/
def statusRanges (left i : Nat) : List Status → List WordRange
  | [] => []
  | s :: status =>
    if s.ends then ⟨left, i⟩ :: statusRanges (i + 1) (i + 1) status
    else statusRanges left (i + 1) status

/-- `InternalCut` of the runes from `first` on. -/
def internalCut (minDouble : W) (model : HMMModel W) (first : Nat) (runes : List RuneStr) :
    List WordRange :=
  statusRanges first first (viterbi minDouble model (runes.map RuneStr.rune))

end Model

/-! ## Letters and digits -/

def isLetter (x : Rune) : Bool := (97 ≤ x && x ≤ 122) || (65 ≤ x && x ≤ 90)

def isDigit (x : Rune) : Bool := 48 ≤ x && x ≤ 57

/-- `SequentialLetterRule`: how many runes it takes. -/
def sequentialLetterRule : List RuneStr → Nat
  | [] => 0
  | r :: rest =>
    if isLetter r.rune then 1 + (rest.takeWhile fun r => isLetter r.rune || isDigit r.rune).length
    else 0

/-- `NumbersRule`: how many runes it takes. -/
def numbersRule : List RuneStr → Nat
  | [] => 0
  | r :: rest =>
    if isDigit r.rune then 1 + (rest.takeWhile fun r => isDigit r.rune || r.rune = 46).length else 0

/-- The rules, one after the other; a rune for which there is none is taken alone. -/
def ruleLength (runes : List RuneStr) : Nat :=
  if sequentialLetterRule runes ≠ 0 then sequentialLetterRule runes
  else if numbersRule runes ≠ 0 then numbersRule runes
  else 1

/-- The loop of `Cut`: `pending` are the runes from `left` on that have not been cut, and so many runes
still belong to the word before. -/
def cutFrom [LinearOrder W] [Add W] (minDouble : W) (model : HMMModel W) :
    Nat → List RuneStr → Nat → List RuneStr → List WordRange
  | left, pending, _, [] => internalCut minDouble model left pending
  | left, pending, skip + 1, _ :: rest => cutFrom minDouble model left pending skip rest
  | left, pending, 0, r :: rest =>
    if r.rune < 0x80 then
      let right := left + pending.length
      let length := ruleLength (r :: rest)
      internalCut minDouble model left pending ++ ⟨right, right + length - 1⟩ ::
        cutFrom minDouble model (right + length) [] (length - 1) rest
    else cutFrom minDouble model left (pending ++ [r]) 0 rest

/-- `Cut` of a range of runes. -/
def cutRange [LinearOrder W] [Add W] (minDouble : W) (model : HMMModel W) (runes : List RuneStr) :
    List WordRange :=
  cutFrom minDouble model 0 [] 0 runes

/-! ## The probability of tags -/

section Score

variable [LinearOrder W] [Add W] (minDouble : W) (model : HMMModel W)

/-- The logarithm of the probability of tagged runes, the last one first. -/
def scoreBack : List (Rune × Status) → Option W
  | [] => none
  | [(r, y)] => some (model.startProb y + model.getEmitProb y r minDouble)
  | (r, y) :: (r', y') :: before =>
    (scoreBack ((r', y') :: before)).map fun t =>
      t + model.transProb y' y + model.getEmitProb y r minDouble

/-- The logarithm of the probability of runes with tags, added up from the first to the last. -/
def score (keys : List Rune) (status : List Status) : Option W :=
  scoreBack minDouble model (keys.zip status).reverse

/-- The edges of a rune with a tag, to the rune before with its tags. A node has the runes up to its own,
the last one first. -/
def edges : List Rune × Status → List ((List Rune × Status) × (W → W))
  | (r :: r' :: before, y) => Status.all.map fun preY =>
    ((r' :: before, preY), fun t =>
      t + model.transProb preY y + model.getEmitProb y r minDouble)
  | _ => []

/-- The first rune. -/
def stop : List Rune × Status → Option W
  | ([r], y) => some (model.startProb y + model.getEmitProb y r minDouble)
  | _ => none

/-- The columns up to a rune. -/
def columns (back : List Rune) : List (Column W) :=
  back.reverse.foldl (pushColumn minDouble model) []

/-- The entry of a rune with a tag. -/
def entry (n : List Rune × Status) : W × Option Status :=
  match columns minDouble model n.1 with
  | [] => (minDouble, none)
  | last :: _ => last.get n.2

/-- The node that the path leads to. -/
def choose (n : List Rune × Status) : List Rune × Status :=
  (n.1.tail, (entry minDouble model n).2.getD .E)

end Score

section Viterbi

variable [LinearOrder W] [Add W] {minDouble : W} {model : HMMModel W}

theorem columns_cons (r : Rune) (before : List Rune) :
    columns minDouble model (r :: before) =
      pushColumn minDouble model (columns minDouble model before) r := by
  unfold columns
  rw [List.reverse_cons, List.foldl_append]
  rfl

theorem length_columns (back : List Rune) : (columns minDouble model back).length = back.length := by
  induction back with
  | nil => rfl
  | cons r before ih =>
    rw [columns_cons, List.length_cons, ← ih]
    unfold pushColumn
    cases columns minDouble model before with
    | nil => rfl
    | cons c cs => rfl

theorem entry_single (r : Rune) (y : Status) :
    entry minDouble model ([r], y) =
      (model.startProb y + model.getEmitProb y r minDouble, none) :=
  Column.get_ofFn _ y

/-- The entry of a rune behind another one. -/
theorem entry_cons (r r' : Rune) (before : List Rune) (y : Status) :
    entry minDouble model (r :: r' :: before, y) =
      (fun best : W × Option Status => (best.1, some (best.2.getD .E)))
        (BestPath.best minDouble (fun preY => (entry minDouble model (r' :: before, preY)).1 +
          model.transProb preY y + model.getEmitProb y r minDouble) Status.all) := by
  unfold entry
  dsimp only
  rw [columns_cons]
  have hlength := @length_columns W _ _ minDouble model (r' :: before)
  cases hcolumns : columns minDouble model (r' :: before) with
  | nil =>
    rw [hcolumns] at hlength
    cases hlength
  | cons c cs => exact Column.get_ofFn _ y

/-- **The table** has the values of the best ways back to the first rune. -/
theorem worth_entry : BestPath.Worth (edges minDouble model) (stop minDouble model) minDouble
    (choose minDouble model) (fun n => (entry minDouble model n).1) where
  ends := by
    rintro ⟨_ | ⟨r, _ | ⟨r', before⟩⟩, y⟩ value hstop
    · cases hstop
    · obtain rfl := Option.some.inj hstop
      rw [entry_single]
    · cases hstop
  edge := by
    rintro ⟨_ | ⟨r, _ | ⟨r', before⟩⟩, y⟩ hstop e he
    · exact absurd he List.not_mem_nil
    · exact absurd he List.not_mem_nil
    · obtain ⟨preY, hpreY, rfl⟩ := List.mem_map.mp he
      rw [entry_cons]
      exact BestPath.le_best minDouble (fun preY => (entry minDouble model (r' :: before, preY)).1 +
        model.transProb preY y + model.getEmitProb y r minDouble) hpreY
  chosen := by
    rintro ⟨_ | ⟨r, _ | ⟨r', before⟩⟩, y⟩ hstop habove
    · exact absurd habove (lt_irrefl minDouble)
    · cases hstop
    · have hentry := @entry_cons W _ _ minDouble model r r' before y
      rcases BestPath.best_cases minDouble
          (fun preY => (entry minDouble model (r' :: before, preY)).1 + model.transProb preY y +
            model.getEmitProb y r minDouble) Status.all with hnone | ⟨preY, hpreY, hbest, -⟩
      · rw [hnone] at hentry
        rw [hentry] at habove
        exact absurd habove (lt_irrefl minDouble)
      · rw [hbest] at hentry
        have hchoose : choose minDouble model (r :: r' :: before, y) = (r' :: before, preY) := by
          unfold choose
          rw [hentry]
          rfl
        rw [hchoose]
        exact ⟨_, List.mem_map.mpr ⟨preY, hpreY, rfl⟩, congrArg Prod.fst hentry⟩

omit [LinearOrder W] in
/-- **A way is a row of tags** for the runes, with its score. -/
theorem tags_of_way {n : List Rune × Status} {ns : List (List Rune × Status)} {t : W}
    (h : BestPath.Way (edges minDouble model) (stop minDouble model) n ns t) :
    ∃ rest, ns.map Prod.snd = n.2 :: rest ∧ (n.2 :: rest).length = n.1.length ∧
      scoreBack minDouble model (n.1.zip (n.2 :: rest)) = some t := by
  induction h with
  | @stop n value hstop =>
    obtain ⟨_ | ⟨r, _ | ⟨r', before⟩⟩, y⟩ := n
    · cases hstop
    · exact ⟨[], rfl, rfl, hstop⟩
    · cases hstop
  | @step n n' w total ns hstop hedge hway ih =>
    obtain ⟨_ | ⟨r, _ | ⟨r', before⟩⟩, y⟩ := n
    · exact absurd hedge List.not_mem_nil
    · exact absurd hedge List.not_mem_nil
    · obtain ⟨preY, -, heq⟩ := List.mem_map.mp hedge
      obtain ⟨rfl, rfl⟩ := Prod.mk.inj heq
      obtain ⟨rest, htags, hlength, hscore⟩ := ih
      refine ⟨preY :: rest, congrArg (y :: ·) htags, congrArg (· + 1) hlength, ?_⟩
      exact congrArg (Option.map fun t =>
        t + model.transProb preY y + model.getEmitProb y r minDouble) hscore

omit [LinearOrder W] in
/-- **A row of tags is a way.** -/
theorem way_of_tags {back : List Rune} {y : Status} {rest : List Status} {t : W}
    (hlength : (y :: rest).length = back.length)
    (ht : scoreBack minDouble model (back.zip (y :: rest)) = some t) :
    ∃ ns, BestPath.Way (edges minDouble model) (stop minDouble model) (back, y) ns t := by
  induction back generalizing y rest t with
  | nil => cases hlength
  | cons r before ih =>
    cases before with
    | nil =>
      obtain rfl : rest = [] := List.eq_nil_of_length_eq_zero (Nat.succ.inj hlength)
      exact ⟨_, .stop ht⟩
    | cons r' before =>
      cases rest with
      | nil => cases hlength
      | cons y' rest =>
        obtain ⟨t', ht', rfl⟩ := Option.map_eq_some_iff.mp ht
        obtain ⟨ns, hway⟩ := ih (Nat.succ.inj hlength) ht'
        have hedge : ((r' :: before, y'), fun t =>
            t + model.transProb y' y + model.getEmitProb y r minDouble) ∈
            edges minDouble model (r :: r' :: before, y) :=
          List.mem_map.mpr ⟨y', y'.mem_all, rfl⟩
        have hstep := BestPath.Way.step rfl hedge hway
        exact ⟨_, hstep⟩

/-- **The way back follows the paths**, down to the first rune. -/
theorem follows_goBack {back : List Rune} (hne : back ≠ []) (y : Status) :
    ∃ ns, BestPath.Follows (stop minDouble model) (choose minDouble model) (back, y)
        ((back, y) :: ns) ∧
      goBack y (columns minDouble model back) = y :: ns.map Prod.snd ∧
      (y :: ns.map Prod.snd).length = back.length := by
  induction back generalizing y with
  | nil => exact absurd rfl hne
  | cons r before ih =>
    have hcolumns : ∃ c, columns minDouble model (r :: before) =
        c :: columns minDouble model before ∧ c.get y = entry minDouble model (r :: before, y) := by
      unfold entry
      dsimp only
      rw [columns_cons]
      unfold pushColumn
      cases columns minDouble model before with
      | nil => exact ⟨_, rfl, rfl⟩
      | cons c cs => exact ⟨_, rfl, rfl⟩
    obtain ⟨c, hcolumns, hget⟩ := hcolumns
    rw [hcolumns, goBack, hget]
    cases before with
    | nil =>
      rw [entry_single]
      exact ⟨[], .stop rfl, rfl, rfl⟩
    | cons r' before =>
      have hchoose : choose minDouble model (r :: r' :: before, y) =
          (r' :: before, (entry minDouble model (r :: r' :: before, y)).2.getD .E) := rfl
      have hpath : (entry minDouble model (r :: r' :: before, y)).2 =
          some ((entry minDouble model (r :: r' :: before, y)).2.getD .E) := by
        rw [entry_cons]
        rfl
      rw [hpath]
      generalize (entry minDouble model (r :: r' :: before, y)).2.getD .E = preY at hchoose
      obtain ⟨ns, hfollows, hback, hlength⟩ := ih (List.cons_ne_nil r' before) preY
      refine ⟨(r' :: before, preY) :: ns, .step rfl ?_, congrArg (y :: ·) hback,
        congrArg (· + 1) hlength⟩
      rw [hchoose]
      exact hfollows

/-- No probability makes a product greater. -/
def Deflates (minDouble : W) (model : HMMModel W) : Prop :=
  ∀ t preY y r, t + model.transProb preY y + model.getEmitProb y r minDouble ≤ t

/-- Tags for all runes, with a word that ends at the last one. -/
structure Tags (keys : List Rune) (status : List Status) : Prop where
  length : status.length = keys.length
  last : ∃ y ∈ status.getLast?, y.ends = true

/-- The better of the last tags, and the way back from it. -/
theorem viterbi_spec {keys : List Rune} (hne : keys ≠ []) :
    ∃ stat, stat.ends = true ∧
      (∀ y, y.ends = true → (entry minDouble model (keys.reverse, y)).1 ≤
        (entry minDouble model (keys.reverse, stat)).1) ∧
      viterbi minDouble model keys =
        (goBack stat (columns minDouble model keys.reverse)).reverse := by
  have hcolumns : keys.foldl (pushColumn minDouble model) [] =
      columns minDouble model keys.reverse := by
    unfold columns
    rw [List.reverse_reverse]
  cases hlast : columns minDouble model keys.reverse with
  | nil =>
    have hlength := @length_columns W _ _ minDouble model keys.reverse
    rw [hlast, List.length_reverse] at hlength
    exact absurd (List.eq_nil_of_length_eq_zero hlength.symm) hne
  | cons last columns =>
    have hentry : ∀ y, entry minDouble model (keys.reverse, y) = last.get y := by
      intro y
      unfold entry
      dsimp only
      rw [hlast]
    have hviterbi : viterbi minDouble model keys = (goBack
        (if (last.get .S).1 ≤ (last.get .E).1 then Status.E else Status.S) (last :: columns)).reverse := by
      unfold viterbi
      rw [hcolumns, hlast]
    by_cases hle : (last.get .S).1 ≤ (last.get .E).1
    · rw [if_pos hle] at hviterbi
      refine ⟨.E, rfl, fun y hy => ?_, hviterbi⟩
      rw [hentry, hentry]
      cases y with
      | E => exact le_refl _
      | S => exact hle
      | B => cases hy
      | M => cases hy
    · rw [if_neg hle] at hviterbi
      refine ⟨.S, rfl, fun y hy => ?_, hviterbi⟩
      rw [hentry, hentry]
      cases y with
      | E => exact (not_le.mp hle).le
      | S => exact le_refl _
      | B => cases hy
      | M => cases hy

/-- The tags on the way back are tags for the runes. -/
theorem tags_goBack {keys : List Rune} {stat : Status} {rest : List Status} (hends : stat.ends = true)
    (hlength : (stat :: rest).length = keys.length) : Tags keys (stat :: rest).reverse where
  length := by rw [List.length_reverse, hlength]
  last := ⟨stat, by rw [List.reverse_cons, List.getLast?_append]; rfl, hends⟩

/-- **Every run gives tags**, whatever the probabilities are. -/
theorem viterbi_tags {keys : List Rune} (hne : keys ≠ []) :
    Tags keys (viterbi minDouble model keys) := by
  obtain ⟨stat, hends, -, hviterbi⟩ := @viterbi_spec W _ _ minDouble model keys hne
  have hback : keys.reverse ≠ [] := fun h => hne (List.reverse_eq_nil_iff.mp h)
  obtain ⟨ns, -, hgoBack, hlength⟩ := @follows_goBack W _ _ minDouble model _ hback stat
  rw [hviterbi, hgoBack]
  exact tags_goBack hends (hlength.trans List.length_reverse)

omit [LinearOrder W] in
/-- The score of tags, from the last rune back. -/
theorem score_eq {keys : List Rune} {status : List Status} (h : status.length = keys.length) :
    score minDouble model keys status =
      scoreBack minDouble model (keys.reverse.zip status.reverse) := by
  unfold score
  rw [List.zip_eq_zipWith, List.zip_eq_zipWith, List.reverse_zipWith h.symm]

/-- **The greatest probability**: when no probability makes a product greater and some tags are above
`MIN_DOUBLE`, those of `Viterbi` are as probable as all others. -/
theorem viterbi_best [AddRightMono W] (hmodel : Deflates minDouble model) {keys : List Rune}
    {status' : List Status} (htags' : Tags keys status') {t' : W}
    (hscore' : score minDouble model keys status' = some t') (habove : minDouble < t') :
    Tags keys (viterbi minDouble model keys) ∧
      ∃ t, score minDouble model keys (viterbi minDouble model keys) = some t ∧
        ∀ status'' t'', Tags keys status'' → score minDouble model keys status'' = some t'' →
          t'' ≤ t := by
  -- tags are ways back from a last tag that ends a word
  have hways : ∀ status t, Tags keys status → score minDouble model keys status = some t →
      ∃ y ns, y.ends = true ∧
        BestPath.Way (edges minDouble model) (stop minDouble model) (keys.reverse, y) ns t := by
    intro status t htags hscore
    obtain ⟨y, hy, hends⟩ := htags.last
    obtain ⟨before, rfl⟩ := List.getLast?_eq_some_iff.mp hy
    rw [score_eq htags.length, List.reverse_append] at hscore
    obtain ⟨ns, hway⟩ := way_of_tags (by simpa using htags.length) hscore
    exact ⟨y, ns, hends, hway⟩
  have hmono : ∀ n, ∀ e ∈ edges minDouble model n, Monotone e.2 := by
    rintro ⟨_ | ⟨r, _ | ⟨r', before⟩⟩, y⟩ e he
    · exact absurd he List.not_mem_nil
    · exact absurd he List.not_mem_nil
    · obtain ⟨preY, -, rfl⟩ := List.mem_map.mp he
      intro t t' hle
      dsimp only
      gcongr
  have hneg : ∀ n, ∀ e ∈ edges minDouble model n, ∀ t, e.2 t ≤ t := by
    rintro ⟨_ | ⟨r, _ | ⟨r', before⟩⟩, y⟩ e he
    · exact absurd he List.not_mem_nil
    · exact absurd he List.not_mem_nil
    · obtain ⟨preY, -, rfl⟩ := List.mem_map.mp he
      exact fun t => hmodel t preY y r
  have hne : keys ≠ [] := by
    rintro rfl
    obtain ⟨y, hy, -⟩ := htags'.last
    rw [List.eq_nil_of_length_eq_zero htags'.length] at hy
    cases hy
  obtain ⟨stat, hends, hlast, hviterbi⟩ := @viterbi_spec W _ _ minDouble model keys hne
  have hback : keys.reverse ≠ [] := fun h => hne (List.reverse_eq_nil_iff.mp h)
  obtain ⟨ns, hfollows, hgoBack, hlength⟩ := @follows_goBack W _ _ minDouble model _ hback stat
  obtain ⟨y', ns', hends', hway'⟩ := hways status' t' htags' hscore'
  have hstat : minDouble < (entry minDouble model (keys.reverse, stat)).1 :=
    habove.trans_le ((worth_entry.total_le hmono hway').trans (hlast y' hends'))
  have hway := worth_entry.attained hneg hfollows fun _ => hstat
  obtain ⟨rest, htags, -, hscore⟩ := tags_of_way hway
  obtain rfl : ns.map Prod.snd = rest := (List.cons.inj htags).2
  have htags := tags_goBack hends (hlength.trans List.length_reverse)
  rw [hviterbi, hgoBack]
  refine ⟨htags, (entry minDouble model (keys.reverse, stat)).1, ?_, ?_⟩
  · rw [score_eq htags.length, List.reverse_reverse]
    exact hscore
  · intro status'' t'' htags'' hscore''
    obtain ⟨y'', ns'', hends'', hway''⟩ := hways status'' t'' htags'' hscore''
    exact (worth_entry.total_le hmono hway'').trans (hlast y'' hends'')

end Viterbi

/-- A model that knows 中 at the beginning of a word and 国 at its end. -/
def smallModel : HMMModel ℤ where
  startProb y := if y = .B then 0 else -10
  transProb preY y := if preY = .B ∧ y = .E then 0 else -10
  emitProb y :=
    match y with
    | .B => (∅ : Map Rune ℤ).insert 0x4e2d 0
    | .E => (∅ : Map Rune ℤ).insert 0x56fd 0
    | .M | .S => ∅

theorem deflates_smallModel : Deflates (-100) smallModel := by
  have hemit : ∀ y key, smallModel.getEmitProb y key (-100) ≤ 0 := by
    intro y key
    have hzero : ∀ k, (((∅ : Map Rune ℤ).insert k 0).lookup key).getD (-100) ≤ 0 := by
      intro k
      by_cases h : key = k
      · rw [h, AList.lookup_insert]
        exact le_refl 0
      · rw [AList.lookup_insert_ne h, AList.lookup_empty]
        decide
    cases y with
    | B => exact hzero _
    | E => exact hzero _
    | M => exact (by decide : (-100 : ℤ) ≤ 0)
    | S => exact (by decide : (-100 : ℤ) ≤ 0)
  intro t preY y r
  have htrans : smallModel.transProb preY y ≤ 0 := by
    show (if _ then (0 : ℤ) else -10) ≤ 0
    split <;> decide
  have := hemit y r
  omega

theorem viterbi_best_zhongguo : Tags zhongguo (viterbi (-100) smallModel zhongguo) ∧
    ∃ t, score (-100) smallModel zhongguo (viterbi (-100) smallModel zhongguo) = some t ∧
      ∀ status t', Tags zhongguo status → score (-100) smallModel zhongguo status = some t' →
        t' ≤ t := by
  have htags : Tags zhongguo [.B, .E] := ⟨rfl, .E, rfl, rfl⟩
  have hscore : score (-100) smallModel zhongguo [.B, .E] = some 0 := by decide +kernel
  exact viterbi_best deflates_smallModel htags hscore (by decide)

/-! ## The words -/

/-- A word ends where the tags say so, and the last one at the end. -/
theorem statusRanges_tiles {left i : Nat} (hle : left ≤ i) {status : List Status} (hne : status ≠ [])
    (hlast : ∃ y ∈ status.getLast?, y.ends = true) :
    Span.Tiles left (i + status.length) (statusRanges left i status) := by
  induction status generalizing left i with
  | nil => exact absurd rfl hne
  | cons s rest ih =>
    have hlength : i + (s :: rest).length = i + 1 + rest.length := by
      rw [List.length_cons]
      omega
    unfold statusRanges
    rw [hlength]
    by_cases hrest : rest = []
    · subst hrest
      have hends : s.ends = true := by
        obtain ⟨y, hy, hends⟩ := hlast
        obtain rfl : s = y := Option.some.inj hy
        exact hends
      rw [if_pos hends]
      exact .cons hle (.nil _)
    · have hlast' : ∃ y ∈ rest.getLast?, y.ends = true := by
        obtain ⟨r, rest, rfl⟩ := List.exists_cons_of_ne_nil hrest
        exact hlast
      split
      · exact .cons hle (ih (Nat.le_refl _) hrest hlast')
      · exact ih (Nat.le_succ_of_le hle) hrest hlast'

theorem ruleLength_bounds (r : RuneStr) (rest : List RuneStr) :
    0 < ruleLength (r :: rest) ∧ ruleLength (r :: rest) ≤ rest.length + 1 := by
  have htake : ∀ p : RuneStr → Bool, (rest.takeWhile p).length ≤ rest.length := fun p =>
    (List.takeWhile_prefix p).length_le
  have hletters : sequentialLetterRule (r :: rest) ≤ rest.length + 1 := by
    have hle := htake fun r => isLetter r.rune || isDigit r.rune
    rw [sequentialLetterRule]
    split <;> omega
  have hnumbers : numbersRule (r :: rest) ≤ rest.length + 1 := by
    have hle := htake fun r => isDigit r.rune || r.rune = 46
    rw [numbersRule]
    split <;> omega
  unfold ruleLength
  split
  · omega
  · split <;> omega

section Tiles

variable [LinearOrder W] [Add W] {minDouble : W} {model : HMMModel W}

theorem internalCut_tiles (first : Nat) (runes : List RuneStr) :
    Span.Tiles first (first + runes.length) (internalCut minDouble model first runes) := by
  by_cases hne : runes = []
  · subst hne
    exact .nil _
  · have hkeys : runes.map RuneStr.rune ≠ [] := fun h => hne (List.map_eq_nil_iff.mp h)
    obtain ⟨hlength, hlast⟩ := @viterbi_tags W _ _ minDouble model _ hkeys
    have hstatus : viterbi minDouble model (runes.map RuneStr.rune) ≠ [] := by
      intro h
      rw [h, List.length_map] at hlength
      exact hne (List.eq_nil_of_length_eq_zero hlength.symm)
    have htiles := statusRanges_tiles (Nat.le_refl first) hstatus hlast
    rwa [hlength, List.length_map] at htiles

/-- **The words tile the range**: letters and digits by the rules, and the stretches between. -/
theorem cutFrom_tiles (left : Nat) (pending : List RuneStr) {skip : Nat} {rest : List RuneStr}
    (hskip : skip ≤ rest.length) (hpending : skip = 0 ∨ pending = []) :
    Span.Tiles left (left + pending.length + (rest.length - skip))
      (cutFrom minDouble model left pending skip rest) := by
  induction rest generalizing left pending skip with
  | nil =>
    obtain rfl := Nat.le_zero.mp hskip
    exact internalCut_tiles left pending
  | cons r rest ih =>
    cases skip with
    | succ skip =>
      rw [cutFrom, List.length_cons, Nat.succ_sub_succ]
      exact ih left pending (Nat.le_of_succ_le_succ hskip)
        (.inr (hpending.resolve_left (Nat.succ_ne_zero skip)))
    | zero =>
      unfold cutFrom
      split
      · obtain ⟨hpos, hle⟩ := ruleLength_bounds r rest
        dsimp only
        generalize ruleLength (r :: rest) = length at hpos hle
        have hskip' : length - 1 ≤ rest.length := by omega
        have hrest := ih (left + pending.length + length) [] hskip' (.inr rfl)
        have hnext : left + pending.length + length = left + pending.length + length - 1 + 1 := by omega
        have hend : left + pending.length + length + ([] : List RuneStr).length +
            (rest.length - (length - 1)) = left + pending.length + ((r :: rest).length - 0) := by
          rw [List.length_nil, List.length_cons]
          omega
        rw [hend] at hrest
        refine (internalCut_tiles left pending).append (.cons (by omega) ?_)
        rwa [← hnext]
      · have hrest := ih left (pending ++ [r]) (Nat.zero_le _) (.inl rfl)
        have hend : left + (pending ++ [r]).length + (rest.length - 0) =
            left + pending.length + ((r :: rest).length - 0) := by
          rw [List.length_append, List.length_singleton, List.length_cons]
          omega
        rwa [hend] at hrest

/-- **Nothing of a range is lost.** -/
theorem cutRange_tiles (minDouble : W) (model : HMMModel W) (runes : List RuneStr) :
    Span.Tiles 0 runes.length (cutRange minDouble model runes) := by
  have htiles := @cutFrom_tiles W _ _ minDouble model 0 [] 0 runes (Nat.zero_le _) (.inl rfl)
  rwa [List.length_nil, Nat.zero_add, Nat.sub_zero] at htiles

end Tiles

end HMMSegment

end LightSearch.Cppjieba
