import LightSearch.Dict.EditDistance
import LightSearch.Dict.Recommender
import LightSearch.Lib.Json

/-!
# The recommenders

Each recommender looks up its text, measures how far the words are from it, and takes the best five
from a priority queue. The result is a JSON text, or empty when there is no word.

For a text in UTF-8 exactly two things can end a recommender: a character that cannot stand between
quotes, and a dictionary word whose last character is cut off, since the edit distance reads behind
the end of it (`EnRecommender.exists_ok`, `ChRecommender.exists_ok`, `MixedRecommender.exists_ok`).
-/

set_option autoImplicit false

namespace LightSearch

open Cxx Run EditDistance

/-- A word with its frequency and its distance from the query. -/
structure CandidateResult where
  word : Str
  freq : Int
  dist : Nat
  deriving DecidableEq

/-- `BetterCandidate`: whether the right candidate goes before the left one. -/
def betterCandidate (lhs rhs : CandidateResult) : Bool :=
  if lhs.dist < rhs.dist then false
  else if lhs.dist = rhs.dist then
    if lhs.freq > rhs.freq then false
    else if lhs.freq = rhs.freq then if lhs.word < rhs.word then false else true
    else true
  else true

/-- `candis.top()`, which an empty queue does not have. -/
def top : List CandidateResult → Except Fault CandidateResult
  | [] => .error .danglingIterator
  | candi :: candis =>
    .ok (candis.foldl (fun best c => if betterCandidate best c then c else best) candi)

/-- The loop that takes words from the queue. -/
def takeTop : Nat → List CandidateResult → Except Fault (List Str)
  | 0, _ => .ok []
  | n + 1, candis => do
    let best ← top candis
    let ret ← takeTop n (candis.erase best)
    .ok (best.word :: ret)

/-- The end of a recommender, from the words that it got. -/
def keywords (json : Json.Text) (queryWord : Str) (queryRes : QueryRes) : Except Fault Str :=
  if queryRes.size = 0 then .ok []
  else do
    let retCount := queryRes.size
    let candis ← queryRes.toList.mapM fun elem => do
      let distance ← editDistance queryWord elem.1
      .ok (⟨elem.1, elem.2, distance⟩ : CandidateResult)
    let ret ← takeTop (min 5 retCount) candis
    .ok (json.dump (.object [(lit "Keywords", .array (ret.map .string))]))

/-- `EnRecommender::recommender`. -/
def EnRecommender.recommender (json : Json.Text) (tables : DictTables) (queryString : Str) :
    Except Fault Str := do
  let queryRes ← enQueryRes tables queryString
  keywords json queryString queryRes

/-- `ChRecommender::recommender`. -/
def ChRecommender.recommender (json : Json.Text) (tables : DictTables) (queryWord : Str) :
    Except Fault Str := do
  let queryRes ← chQueryRes tables queryWord
  keywords json queryWord queryRes

/-- `MixedRecommender::recommender`. -/
def MixedRecommender.recommender (json : Json.Text) (en cn : DictTables) (queryString : Str) :
    Except Fault Str := do
  let queryRes ← mixedQueryRes en cn queryString
  keywords json queryString queryRes

/-! ## The queue -/

/-- The best candidate is one of the queue. -/
theorem top_mem {candis : List CandidateResult} {best : CandidateResult} (h : top candis = .ok best) :
    best ∈ candis := by
  have hfold : ∀ (cs : List CandidateResult) (candi : CandidateResult),
      cs.foldl (fun best c => if betterCandidate best c then c else best) candi ∈ candi :: cs := by
    intro cs
    induction cs with
    | nil => exact fun _ => List.mem_cons_self
    | cons c cs ih =>
      intro candi
      rw [List.foldl_cons]
      have hrest := ih (if betterCandidate candi c then c else candi)
      rcases List.mem_cons.mp hrest with heq | hmem
      · rw [heq]
        split
        · exact List.mem_cons_of_mem _ List.mem_cons_self
        · exact List.mem_cons_self
      · exact List.mem_cons_of_mem _ (List.mem_cons_of_mem _ hmem)
  cases candis with
  | nil => cases h
  | cons candi candis =>
    obtain rfl := Except.ok.inj h
    exact hfold candis candi

/-- The queue has as many words as are taken. -/
theorem takeTop_ok {n : Nat} {candis : List CandidateResult} (h : n ≤ candis.length) :
    ∃ ret, takeTop n candis = .ok ret := by
  induction n generalizing candis with
  | zero => exact ⟨[], rfl⟩
  | succ n ih =>
    cases candis with
    | nil => exact absurd h (Nat.not_succ_le_zero n)
    | cons candi candis =>
      obtain ⟨best, hbest⟩ : ∃ best, top (candi :: candis) = .ok best := ⟨_, rfl⟩
      have hlen : n ≤ ((candi :: candis).erase best).length := by
        rw [List.length_erase_of_mem (top_mem hbest)]
        exact Nat.le_sub_of_add_le h
      obtain ⟨ret, hret⟩ := ih hlen
      rw [takeTop, hbest, Except.ok_bind, hret]
      exact ⟨best.word :: ret, rfl⟩

/-- **When the words have an order**: when each of them is whole. -/
theorem keywords_exists_ok {json : Json.Text} {queryWord : Str} (hwhole : Whole queryWord)
    {queryRes : QueryRes} :
    (∃ reply, keywords json queryWord queryRes = .ok reply) ↔ ∀ p ∈ queryRes, Whole p.1 := by
  have hcandis : (∃ candis, (queryRes.toList.mapM fun elem => do
      let distance ← editDistance queryWord elem.1
      Except.ok (⟨elem.1, elem.2, distance⟩ : CandidateResult)) = .ok candis) ↔
      ∀ p ∈ queryRes, Whole p.1 := by
    rw [Except.exists_mapM_ok]
    simp only [Std.TreeSet.mem_toList]
    refine forall₂_congr fun p _ => ?_
    have hdist : (∃ dist, editDistance queryWord p.1 = .ok dist) ↔ Whole p.1 :=
      editDistance_ok_iff.trans (and_iff_right hwhole)
    rw [← hdist]
    exact Except.exists_bind_ok_of_total fun dist => ⟨_, rfl⟩
  unfold keywords
  split
  · next hempty =>
    refine ⟨fun _ p hp => ?_, fun _ => ⟨[], rfl⟩⟩
    rw [← Std.TreeSet.mem_toList] at hp
    have hlen := List.length_pos_of_mem hp
    rw [Std.TreeSet.length_toList, hempty] at hlen
    exact absurd hlen (Nat.lt_irrefl 0)
  · rw [← hcandis]
    constructor
    · rintro ⟨reply, hbind⟩
      obtain ⟨candis, h, -⟩ := Except.bind_eq_ok.mp hbind
      exact ⟨candis, h⟩
    · rintro ⟨candis, h⟩
      have hlen : min 5 queryRes.size ≤ candis.length := by
        rw [Except.length_mapM h, Std.TreeSet.length_toList]
        exact Nat.min_le_right _ _
      obtain ⟨ret, hret⟩ := takeTop_ok hlen
      exact ⟨_, Except.bind_eq_ok.mpr ⟨candis, h, Except.bind_eq_ok.mpr ⟨ret, hret, rfl⟩⟩⟩

/-! ## What ends a recommender -/

/-- A word that is looked up for a text: the tables join it to one of its characters. -/
def LookedUp (tables : Str → DictTables) (cs : List Char) (word : Str) : Prop :=
  ∃ c ∈ cs, ∃ frequency,
    (tables (String.utf8EncodeChar c)).Joins (String.utf8EncodeChar c) word frequency

/-- The words of the set are the words that are looked up. -/
theorem whole_looked {tables : Str → DictTables} {cs : List Char} {queryRes : QueryRes}
    (hmem : ∀ p, p ∈ queryRes ↔ Looked tables (cs.map String.utf8EncodeChar) p) :
    (∀ p ∈ queryRes, Whole p.1) ↔ ∀ word, LookedUp tables cs word → Whole word := by
  constructor
  · rintro h word ⟨c, hc, frequency, hjoins⟩
    exact h (word, frequency)
      ((hmem _).mpr ⟨_, List.mem_map_of_mem hc, word, frequency, hjoins, rfl⟩)
  · intro h p hp
    obtain ⟨str, hstr, word, frequency, hjoins, rfl⟩ := (hmem p).mp hp
    obtain ⟨c, hc, rfl⟩ := List.mem_map.mp hstr
    exact h word ⟨c, hc, frequency, hjoins⟩

/-- A recommender that cuts its text replies when it can look up all characters and all words that it
gets are whole. -/
theorem cutKeywords_exists_ok {json : Json.Text} {step : QueryRes → Str → Except Fault QueryRes}
    {tables : Str → DictTables}
    (hone : ∀ str, AllQuotable str → ∀ queryRes, ∃ queryRes', step queryRes str = .ok queryRes' ∧
      ∀ p, p ∈ queryRes' ↔ p ∈ queryRes ∨
        ∃ word frequency, (tables str).Joins str word frequency ∧ p = (word, (frequency : Int)))
    (hfail : ∀ queryRes ch, ¬ Quotable ch → step queryRes [ch] = .error .nullPointer)
    (cs : List Char) :
    (∃ reply, (cutString (Utf8.encode cs) >>= run step ∅) >>= keywords json (Utf8.encode cs) =
        .ok reply) ↔
      AllQuotable (Utf8.encode cs) ∧ ∀ word, LookedUp tables cs word → Whole word := by
  constructor
  · rintro ⟨reply, h⟩
    obtain ⟨queryRes, hrun, hkeywords⟩ := Except.bind_eq_ok.mp h
    have hquotable := quotable_of_cutLookups hfail hrun
    obtain ⟨queryRes', hrun', hmem⟩ := cutLookups_ok hone hquotable
    obtain rfl := Except.ok.inj (hrun.symm.trans hrun')
    exact ⟨hquotable, (whole_looked hmem).mp
      ((keywords_exists_ok (whole_encode cs)).mp ⟨reply, hkeywords⟩)⟩
  · rintro ⟨hquotable, hwhole⟩
    obtain ⟨queryRes, hrun, hmem⟩ := cutLookups_ok hone hquotable
    rw [hrun, Except.ok_bind]
    exact (keywords_exists_ok (whole_encode cs)).mpr ((whole_looked hmem).mpr hwhole)

/-- **What ends the Chinese recommender.** -/
theorem ChRecommender.exists_ok (json : Json.Text) (tables : DictTables) (cs : List Char) :
    (∃ reply, ChRecommender.recommender json tables (Utf8.encode cs) = .ok reply) ↔
      AllQuotable (Utf8.encode cs) ∧ ∀ word, LookedUp (fun _ => tables) cs word → Whole word :=
  cutKeywords_exists_ok (fun _ h => gatherOne_ok tables cnSelect_wellFormed h)
    (fun queryRes _ => gatherOne_not_quotable tables cnSelect_wellFormed queryRes) cs

/-- **What ends the mixed recommender.** -/
theorem MixedRecommender.exists_ok (json : Json.Text) (en cn : DictTables) (cs : List Char) :
    (∃ reply, MixedRecommender.recommender json en cn (Utf8.encode cs) = .ok reply) ↔
      AllQuotable (Utf8.encode cs) ∧
        ∀ word, LookedUp (fun str => if str.length = 1 then en else cn) cs word → Whole word :=
  cutKeywords_exists_ok (fun _ h => mixedOne_ok en cn h)
    (fun queryRes _ => gatherOne_not_quotable en enSelect_wellFormed queryRes) cs

/-- **What ends the English recommender**, on a text of ASCII characters. -/
theorem EnRecommender.exists_ok (json : Json.Text) (tables : DictTables) {cs : List Char}
    (hascii : ∀ c ∈ cs, c.utf8Size = 1) (hquotable : AllQuotable (Utf8.encode cs)) :
    (∃ reply, EnRecommender.recommender json tables (Utf8.encode cs) = .ok reply) ↔
      ∀ word, LookedUp (fun _ => tables) cs word → Whole word := by
  -- the bytes of the text are its characters
  have hsingle : ((Utf8.encode cs).map fun ch => [ch]) = cs.map String.utf8EncodeChar := by
    clear hquotable
    induction cs with
    | nil => rfl
    | cons c cs ih =>
      have hrest := ih fun d hd => hascii d (List.mem_cons_of_mem _ hd)
      rw [Utf8.encode_cons, List.map_append, hrest, List.map_cons,
        String.utf8EncodeChar_eq_singleton (hascii c List.mem_cons_self)]
      rfl
  have hone : ∀ str ∈ cs.map String.utf8EncodeChar, AllQuotable str := by
    intro str hstr ch hch
    obtain ⟨c, hc, rfl⟩ := List.mem_map.mp hstr
    exact hquotable ch (List.mem_flatMap.mpr ⟨c, hc, hch⟩)
  have hsteps := fun str hstr => gatherOne_ok tables enSelect_wellFormed (hone str hstr)
  obtain ⟨queryRes, hrun, hmem⟩ := lookups_ok hsteps ∅
  have hlooked : ∀ p, p ∈ queryRes ↔ Looked (fun _ => tables) (cs.map String.utf8EncodeChar) p :=
    fun p => (hmem p).trans (or_iff_right Std.TreeSet.not_mem_emptyc)
  have hquery : enQueryRes tables (Utf8.encode cs) = .ok queryRes := by
    unfold enQueryRes gather
    rw [hsingle, hrun]
  unfold EnRecommender.recommender
  rw [hquery, Except.ok_bind, keywords_exists_ok (whole_encode cs), whole_looked hlooked]

end LightSearch
