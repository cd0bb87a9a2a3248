import LightSearch.Dict.Keywords
import LightSearch.Lib.Heap
import LightSearch.Lib.JsonText

/-!
# The ranking

The recommenders put their candidates into a `priority_queue`, a binary heap that `BetterCandidate`
orders, and take at most five. `BetterCandidate` is no strict order: it is true of two equal
candidates. Here the queue is the heap, and the function object a parameter that can fail on two
equivalent candidates (`checkedCandidate`); the queue never asks it about such.

The reply has the first five words of the candidates in their order: smaller distance, then larger
frequency, then smaller word (`Ranks`). It depends on the set of the rows alone.

The database may give any rows as answers. `EnRecommender.recommender` and the others are the case
where the rows come from the tables (`EnRecommender.recommender_ranked`).
-/

set_option autoImplicit false

namespace LightSearch

open Cxx Run EditDistance

/-- The order of the candidates: distance, frequency downwards, word. -/
def CandidateResult.Before (lhs rhs : CandidateResult) : Prop :=
  lhs.dist < rhs.dist ∨ lhs.dist = rhs.dist ∧
    (rhs.freq < lhs.freq ∨ lhs.freq = rhs.freq ∧ lhs.word < rhs.word)

instance (lhs rhs : CandidateResult) : Decidable (lhs.Before rhs) :=
  inferInstanceAs (Decidable (_ ∨ _ ∧ (_ ∨ _ ∧ _)))

/-- `BetterCandidate` with a check that its arguments are not equivalent. -/
def checkedCandidate (lhs rhs : CandidateResult) : Except Fault Bool :=
  if betterCandidate lhs rhs = betterCandidate rhs lhs then
    .error (.thrown (lit "equivalent candidates"))
  else .ok (betterCandidate lhs rhs)

/-- The loop that fills the queue. -/
def fillCandis (comp : CandidateResult → CandidateResult → Except Fault Bool) (queryWord : Str)
    (candis : Array CandidateResult) (elem : Str × Int) : Except Fault (Array CandidateResult) := do
  let distance ← editDistance queryWord elem.1
  Heap.push comp candis ⟨elem.1, elem.2, distance⟩

/-- The end of a recommender, with the queue as a heap. -/
def rankedKeywords (comp : CandidateResult → CandidateResult → Except Fault Bool)
    (json : Json.Text) (queryWord : Str) (queryRes : QueryRes) : Except Fault Str :=
  if queryRes.size = 0 then .ok []
  else do
    let retCount := queryRes.size
    let candis ← run (fillCandis comp queryWord) #[] queryRes.toList
    let ret ← Heap.drain comp (min 5 retCount) candis
    .ok (json.dump (.object [(lit "Keywords", .array (ret.map fun top => .string top.word))]))

/-- The loop over the characters, with any answers to its queries. -/
def gatherFrom (ask : Str → Except Fault (List (List Str))) (singleChars : List Str) :
    Except Fault QueryRes :=
  run (fun queryRes str => do
    let tempRes ← ask str
    run insertRow queryRes tempRes) ∅ singleChars

/-- The query for a character. -/
def asks (select : Select) (answer : Str → List (List Str)) (str : Str) :
    Except Fault (List (List Str)) :=
  doQuery select answer (select.sql str)

/-- The query of `MixedRecommender` for a character. -/
def mixedAsks (en cn : Str → List (List Str)) (str : Str) : Except Fault (List (List Str)) :=
  if str.length = 1 then asks enSelect en str else asks cnSelect cn str

/-- `EnRecommender::recommender` on any answers. -/
def EnRecommender.ranked (comp : CandidateResult → CandidateResult → Except Fault Bool)
    (json : Json.Text) (answer : Str → List (List Str)) (queryString : Str) : Except Fault Str := do
  let queryRes ← gatherFrom (asks enSelect answer) (queryString.map fun ch => [ch])
  rankedKeywords comp json queryString queryRes

/-- `ChRecommender::recommender` on any answers. -/
def ChRecommender.ranked (comp : CandidateResult → CandidateResult → Except Fault Bool)
    (json : Json.Text) (answer : Str → List (List Str)) (queryWord : Str) : Except Fault Str := do
  let singleChars ← LightSearch.cutString queryWord
  let queryRes ← gatherFrom (asks cnSelect answer) singleChars
  rankedKeywords comp json queryWord queryRes

/-- `MixedRecommender::recommender` on any answers. -/
def MixedRecommender.ranked (comp : CandidateResult → CandidateResult → Except Fault Bool)
    (json : Json.Text) (en cn : Str → List (List Str)) (queryString : Str) : Except Fault Str := do
  let singleChars ← LightSearch.cutString queryString
  let queryRes ← gatherFrom (mixedAsks en cn) singleChars
  rankedKeywords comp json queryString queryRes

/-- `BetterCandidate` as it is. -/
def plainCandidate (lhs rhs : CandidateResult) : Except Fault Bool := .ok (betterCandidate lhs rhs)

/-! ## The order of the candidates -/

namespace CandidateResult

theorem Before.irrefl (candi : CandidateResult) : ¬ Before candi candi := by
  simp [Before, List.lt_irrefl]

theorem Before.trans {a b c : CandidateResult} (hab : Before a b) (hbc : Before b c) : Before a c := by
  unfold Before at *
  have hwords := @List.lt_trans _ _ _ a.word b.word c.word
  grind

theorem Before.total {a b : CandidateResult} (hne : a ≠ b) : Before a b ∨ Before b a := by
  by_contra h
  simp only [Before, not_or, not_and, Nat.not_lt, Int.not_lt] at h
  obtain ⟨⟨hdist, hab⟩, hdist', hba⟩ := h
  have hdists : a.dist = b.dist := Nat.le_antisymm hdist' hdist
  obtain ⟨hfreq, hword⟩ := hab hdists
  obtain ⟨hfreq', hword'⟩ := hba hdists.symm
  have hfreqs : a.freq = b.freq := Int.le_antisymm hfreq hfreq'
  have hwords : a.word = b.word := List.le_antisymm (hword' hfreqs.symm) (hword hfreqs)
  cases a
  cases b
  simp_all

/-- In their order no two candidates are equal. -/
theorem Before.nodup {ranking : List CandidateResult} (h : ranking.Pairwise Before) :
    ranking.Nodup := by
  refine h.imp fun {a b} hgoes heq => ?_
  subst heq
  exact Before.irrefl a hgoes

end CandidateResult

open CandidateResult

/-- `BetterCandidate` decides the order of two different candidates. -/
theorem betterCandidate_iff {lhs rhs : CandidateResult} (hne : lhs ≠ rhs) :
    betterCandidate lhs rhs = true ↔ Before rhs lhs := by
  have hsame : betterCandidate lhs rhs = true ↔ ¬ Before lhs rhs := by
    unfold betterCandidate Before
    grind
  rw [hsame]
  exact ⟨(Before.total hne).resolve_left, fun hgoes hback => Before.irrefl lhs (hback.trans hgoes)⟩

/-- A candidate is better than itself, so the comparator is no strict order; only equal candidates are
touched by that. -/
theorem betterCandidate_self (candi : CandidateResult) : betterCandidate candi candi = true := by
  simp [betterCandidate, List.lt_irrefl]

/-- Only equal candidates are equivalent. -/
theorem equivalent_iff {lhs rhs : CandidateResult} :
    betterCandidate lhs rhs = betterCandidate rhs lhs ↔ lhs = rhs := by
  refine ⟨fun heq => ?_, fun heq => heq ▸ rfl⟩
  by_contra hne
  have hleft := betterCandidate_iff hne
  have hright := betterCandidate_iff (Ne.symm hne)
  rw [← heq, hleft] at hright
  rcases Before.total hne with h | h
  · exact Before.irrefl lhs (h.trans (hright.mpr h))
  · exact Before.irrefl lhs ((hright.mp h).trans h)

/-! ## The queue -/

theorem compares_plain : Heap.Compares (fun lhs rhs => Before rhs lhs) plainCandidate where
  irrefl := Before.irrefl
  trans _ _ _ hab hbc := hbc.trans hab
  total _ _ hne := (Before.total hne).symm
  decides lhs rhs hne := ⟨betterCandidate lhs rhs, rfl, betterCandidate_iff hne⟩

theorem compares_checked : Heap.Compares (fun lhs rhs => Before rhs lhs) checkedCandidate where
  irrefl := Before.irrefl
  trans _ _ _ hab hbc := hbc.trans hab
  total _ _ hne := (Before.total hne).symm
  decides lhs rhs hne :=
    ⟨betterCandidate lhs rhs, if_neg fun heq => hne (equivalent_iff.mp heq), betterCandidate_iff hne⟩

/-- The candidate of a word with its frequency. -/
def measure (queryWord : Str) (elem : Str × Int) : Except Fault CandidateResult := do
  let distance ← editDistance queryWord elem.1
  .ok ⟨elem.1, elem.2, distance⟩

theorem measure_eq_ok {queryWord : Str} {elem : Str × Int} {candi : CandidateResult} :
    measure queryWord elem = .ok candi ↔
      (candi.word, candi.freq) = elem ∧ editDistance queryWord candi.word = .ok candi.dist := by
  unfold measure
  rw [Except.bind_eq_ok]
  constructor
  · rintro ⟨dist, hdist, heq⟩
    obtain rfl := Except.ok.inj heq
    exact ⟨rfl, hdist⟩
  · rintro ⟨rfl, hdist⟩
    exact ⟨candi.dist, hdist, rfl⟩

variable {comp : CandidateResult → CandidateResult → Except Fault Bool}

/-- **The queue holds the candidates**, and only the distances can fail. -/
theorem fillCandis_run (hcomp : Heap.Compares (fun lhs rhs => Before rhs lhs) comp)
    (queryWord : Str) {elems : List (Str × Int)} (hnodup : elems.Nodup)
    {heap : Array CandidateResult} (hheap : Heap.IsHeap (fun lhs rhs => Before rhs lhs) heap)
    (hdistinct : heap.toList.Nodup) (hnew : ∀ candi ∈ heap.toList, (candi.word, candi.freq) ∉ elems) :
    (∀ candis, elems.mapM (measure queryWord) = .ok candis →
      ∃ heap', run (fillCandis comp queryWord) heap elems = .ok heap' ∧
        heap'.toList.Perm (candis ++ heap.toList) ∧
        Heap.IsHeap (fun lhs rhs => Before rhs lhs) heap') ∧
    ∀ fault, elems.mapM (measure queryWord) = .error fault →
      run (fillCandis comp queryWord) heap elems = .error fault := by
  induction elems generalizing heap with
  | nil =>
    refine ⟨fun candis h => ?_, fun fault h => nomatch h⟩
    obtain rfl : [] = candis := Except.ok.inj h
    exact ⟨heap, rfl, List.Perm.refl _, hheap⟩
  | cons elem elems ih =>
    obtain ⟨hfresh, hrest⟩ := List.nodup_cons.mp hnodup
    rw [List.mapM_cons, run_cons]
    cases hdist : editDistance queryWord elem.1 with
    | error fault =>
      have hmeasure : measure queryWord elem = .error fault := by
        rw [measure, hdist, Except.error_bind]
      rw [hmeasure, Except.error_bind, fillCandis, hdist, Except.error_bind, Except.error_bind]
      refine ⟨fun candis h => ?_, fun fault' h => ?_⟩
      · cases h
      · exact congrArg Except.error (Except.error.inj h)
    | ok dist =>
      have hmeasure : measure queryWord elem = .ok ⟨elem.1, elem.2, dist⟩ := by
        rw [measure, hdist, Except.ok_bind]
      have hfresh' : (⟨elem.1, elem.2, dist⟩ : CandidateResult) ∉ heap.toList :=
        fun hmem => hnew _ hmem List.mem_cons_self
      obtain ⟨heap₁, hpush, hperm₁, hheap₁⟩ :=
        Heap.push_ok hcomp hheap (List.nodup_cons.mpr ⟨hfresh', hdistinct⟩)
      rw [hmeasure, Except.ok_bind, fillCandis, hdist, Except.ok_bind, hpush, Except.ok_bind]
      obtain ⟨hok, herror⟩ := ih hrest hheap₁
        (hperm₁.nodup_iff.mpr (List.nodup_cons.mpr ⟨hfresh', hdistinct⟩)) (by
          intro candi hcandi hmem
          rcases List.mem_cons.mp (hperm₁.mem_iff.mp hcandi) with rfl | hold
          · exact hfresh hmem
          · exact hnew candi hold (List.mem_cons_of_mem _ hmem))
      refine ⟨fun candis h => ?_, fun fault h => ?_⟩
      · obtain ⟨candis', hcandis', heq⟩ := Except.bind_eq_ok.mp h
        obtain rfl := Except.ok.inj heq
        obtain ⟨heap', hrun, hperm, hheap'⟩ := hok candis' hcandis'
        refine ⟨heap', hrun, hperm.trans ?_, hheap'⟩
        exact (hperm₁.append_left candis').trans List.perm_middle
      · cases hmap : elems.mapM (measure queryWord) with
        | error fault' =>
          rw [hmap, Except.error_bind] at h
          obtain rfl := Except.error.inj h
          exact herror fault' hmap
        | ok candis' =>
          rw [hmap] at h
          cases h

/-- The candidates in their order. -/
theorem exists_ranking {candis : List CandidateResult} (hnodup : candis.Nodup) :
    ∃ ranking, candis.Perm ranking ∧ ranking.Pairwise Before := by
  refine ⟨candis.mergeSort fun a b => decide (¬ Before b a), (List.mergeSort_perm _ _).symm, ?_⟩
  have hsorted := @List.pairwise_mergeSort _ (fun a b => decide (¬ Before b a)) (by
    intro a b c hab hbc
    rw [decide_eq_true_iff] at hab hbc ⊢
    exact compares_plain.not_trans hab hbc) (by
    intro a b
    rw [Bool.or_eq_true, decide_eq_true_iff, decide_eq_true_iff]
    by_contra h
    rw [not_or, not_not, not_not] at h
    exact compares_plain.asymm h.1 h.2) candis
  have hdistinct := (List.mergeSort_perm candis fun a b => decide (¬ Before b a)).nodup_iff.mpr hnodup
  refine (hsorted.and hdistinct).imp fun {a b} h => ?_
  exact (Before.total h.2).resolve_right (of_decide_eq_true h.1)

/-- The best candidate goes behind none. -/
theorem top_first {candis : List CandidateResult} (hnodup : candis.Nodup) {best : CandidateResult}
    (h : top candis = .ok best) : ∀ candi ∈ candis, ¬ Before candi best := by
  have hfold : ∀ (cs : List CandidateResult) (candi : CandidateResult), (candi :: cs).Nodup →
      ∀ c ∈ candi :: cs,
        ¬ Before c (cs.foldl (fun best c => if betterCandidate best c then c else best) candi) := by
    intro cs
    induction cs with
    | nil =>
      intro candi _ c hc
      rw [List.mem_singleton.mp hc]
      exact Before.irrefl candi
    | cons c cs ih =>
      intro candi hnodup
      have hne : candi ≠ c := by
        rintro rfl
        exact (List.nodup_cons.mp hnodup).1 List.mem_cons_self
      have hleft : (candi :: cs).Nodup :=
        hnodup.sublist ((List.sublist_cons_self c cs).cons_cons candi)
      rw [List.foldl_cons]
      by_cases hbetter : betterCandidate candi c = true
      · rw [if_pos hbetter]
        have hrest := ih c (List.nodup_cons.mp hnodup).2
        have hgoes := (betterCandidate_iff hne).mp hbetter
        intro d hd
        rcases List.mem_cons.mp hd with rfl | hd
        · exact fun hback => hrest c List.mem_cons_self (hgoes.trans hback)
        · exact hrest d hd
      · rw [if_neg hbetter]
        have hrest := ih candi hleft
        have hgoes := (Before.total hne).resolve_right
          fun hback => hbetter ((betterCandidate_iff hne).mpr hback)
        intro d hd
        rcases List.mem_cons.mp hd with rfl | hd
        · exact hrest d List.mem_cons_self
        · rcases List.mem_cons.mp hd with rfl | hd
          · exact fun hback => hrest candi List.mem_cons_self (hgoes.trans hback)
          · exact hrest d (List.mem_cons_of_mem _ hd)
  cases candis with
  | nil => cases h
  | cons candi candis =>
    obtain rfl := Except.ok.inj h
    exact hfold candis candi hnodup

/-- Taking the best candidate again and again gives the first ones. -/
theorem takeTop_eq {candis ranking : List CandidateResult} (hperm : candis.Perm ranking)
    (hranking : ranking.Pairwise Before) {n : Nat} (hn : n ≤ ranking.length) :
    takeTop n candis = .ok ((ranking.take n).map CandidateResult.word) := by
  induction n generalizing candis ranking with
  | zero => rfl
  | succ n ih =>
    cases ranking with
    | nil => exact absurd hn (Nat.not_succ_le_zero n)
    | cons candi ranking =>
      obtain ⟨hfirst, hrest⟩ := List.pairwise_cons.mp hranking
      have hnodup := hperm.nodup_iff.mpr (Before.nodup hranking)
      obtain ⟨best, hbest⟩ : ∃ best, top candis = .ok best := by
        cases candis with
        | nil => exact absurd hperm.symm.eq_nil (List.cons_ne_nil _ _)
        | cons c cs => exact ⟨_, rfl⟩
      obtain rfl : best = candi := by
        by_contra hne
        have hmem := hperm.mem_iff.mp (top_mem hbest)
        have hgoes := hfirst best ((List.mem_cons.mp hmem).resolve_left hne)
        exact top_first hnodup hbest candi (hperm.mem_iff.mpr List.mem_cons_self) hgoes
      have hnext : (candis.erase best).Perm ranking := by
        have herase := hperm.erase best
        rwa [List.erase_cons_head] at herase
      rw [takeTop, hbest, Except.ok_bind, ih hnext hrest (Nat.le_of_succ_le_succ hn), Except.ok_bind]
      rfl

/-- The candidates are measured for the words and frequencies. -/
theorem map_of_measured {queryWord : Str} {elems : List (Str × Int)} {candis : List CandidateResult}
    (h : elems.mapM (measure queryWord) = .ok candis) :
    candis.map (fun candi => (candi.word, candi.freq)) = elems := by
  induction elems generalizing candis with
  | nil =>
    obtain rfl : [] = candis := Except.ok.inj h
    rfl
  | cons elem elems ih =>
    rw [List.mapM_cons] at h
    obtain ⟨candi, hcandi, hrest⟩ := Except.bind_eq_ok.mp h
    obtain ⟨candis', hcandis', heq⟩ := Except.bind_eq_ok.mp hrest
    obtain rfl := Except.ok.inj heq
    rw [List.map_cons, ih hcandis', (measure_eq_ok.mp hcandi).1]

theorem nodup_toList (queryRes : QueryRes) : queryRes.toList.Nodup := by
  refine Std.TreeSet.distinct_toList.imp fun {a b} hne heq => ?_
  exact hne (heq ▸ Std.ReflCmp.compare_self)

/-- **The queue and the list**: the heap gives the words that the best candidates of a list give, for
every function object that decides the order of two different candidates. -/
theorem rankedKeywords_eq (hcomp : Heap.Compares (fun lhs rhs => Before rhs lhs) comp)
    (json : Json.Text) (queryWord : Str) (queryRes : QueryRes) :
    rankedKeywords comp json queryWord queryRes = keywords json queryWord queryRes := by
  unfold rankedKeywords keywords
  split
  · rfl
  · obtain ⟨hok, herror⟩ := fillCandis_run hcomp queryWord (nodup_toList queryRes)
      Heap.isHeap_empty List.nodup_nil (by simp)
    change _ = (queryRes.toList.mapM (measure queryWord) >>= _)
    cases hmap : queryRes.toList.mapM (measure queryWord) with
    | error fault =>
      dsimp only
      rw [herror fault hmap, Except.error_bind, Except.error_bind]
    | ok candis =>
      obtain ⟨heap, hrun, hperm, hheap⟩ := hok candis hmap
      have hmapped := map_of_measured hmap
      have hnodup : candis.Nodup := List.Nodup.of_map _ (hmapped ▸ nodup_toList queryRes)
      obtain ⟨ranking, hranked, hranking⟩ := exists_ranking hnodup
      have hlen : min 5 queryRes.size ≤ ranking.length := by
        rw [← hranked.length_eq, Except.length_mapM hmap, Std.TreeSet.length_toList]
        exact Nat.min_le_right _ _
      rw [List.append_nil] at hperm
      dsimp only
      rw [hrun, Except.ok_bind, Except.ok_bind,
        Heap.drain_eq hcomp hheap (hperm.trans hranked) hranking, Except.ok_bind,
        takeTop_eq hranked hranking hlen, Except.ok_bind, List.map_map]
      rfl

/-! ## What the reply is -/

/-- The reply has the first five words of the candidates in their order. -/
def Ranks (json : Json.Text) (query : Str) (rows : List (Str × Int)) (reply : Str) : Prop :=
  (rows = [] ∧ reply = []) ∨
    ∃ ranking : List CandidateResult, ranking ≠ [] ∧ ranking.Pairwise Before ∧
      (∀ candi, candi ∈ ranking ↔
        (candi.word, candi.freq) ∈ rows ∧ editDistance query candi.word = .ok candi.dist) ∧
      (∀ row ∈ rows, ∃ dist, editDistance query row.1 = .ok dist) ∧
      reply = json.dump (.object [(lit "Keywords",
        .array ((ranking.take 5).map fun candi => .string candi.word))])

/-- The reply depends on the set of the rows. -/
theorem Ranks.unique {json : Json.Text} {query : Str} {rows rows' : List (Str × Int)}
    (hsame : ∀ row, row ∈ rows ↔ row ∈ rows') {reply reply' : Str} (h : Ranks json query rows reply)
    (h' : Ranks json query rows' reply') : reply = reply' := by
  -- a ranking has a candidate, and it comes from a row
  have hrow : ∀ {ranking : List CandidateResult} {rows : List (Str × Int)}, ranking ≠ [] →
      (∀ candi, candi ∈ ranking ↔
        (candi.word, candi.freq) ∈ rows ∧ editDistance query candi.word = .ok candi.dist) →
      ∃ row, row ∈ rows := by
    intro ranking rows hne hmem
    obtain ⟨candi, hcandi⟩ := List.exists_mem_of_ne_nil ranking hne
    exact ⟨_, ((hmem candi).mp hcandi).1⟩
  rcases h with ⟨rfl, rfl⟩ | ⟨ranking, hne, hsorted, hmem, -, rfl⟩
  · rcases h' with ⟨-, rfl⟩ | ⟨ranking', hne', -, hmem', -⟩
    · rfl
    · obtain ⟨row, hin⟩ := hrow hne' hmem'
      exact absurd ((hsame row).mpr hin) List.not_mem_nil
  · rcases h' with ⟨rfl, -⟩ | ⟨ranking', hne', hsorted', hmem', -, rfl⟩
    · obtain ⟨row, hin⟩ := hrow hne hmem
      exact absurd ((hsame row).mp hin) List.not_mem_nil
    · have hperm : ranking.Perm ranking' := by
        rw [List.perm_ext_iff_of_nodup (Before.nodup hsorted) (Before.nodup hsorted')]
        intro candi
        rw [hmem, hmem', hsame]
      have heq : ranking = ranking' := by
        refine hperm.eq_of_pairwise (fun a b _ _ hab hba => ?_) hsorted hsorted'
        exact absurd (hab.trans hba) (Before.irrefl a)
      rw [heq]

/-- The reply of a recommender ranks the words that it got. -/
theorem keywords_ranks {json : Json.Text} {query reply : Str} {queryRes : QueryRes}
    (h : keywords json query queryRes = .ok reply) : Ranks json query queryRes.toList reply := by
  unfold keywords at h
  split at h
  · next hempty =>
    refine Or.inl ⟨?_, (Except.ok.inj h).symm⟩
    rw [← List.length_eq_zero_iff, Std.TreeSet.length_toList, hempty]
  · next hsome =>
    refine Or.inr ?_
    change (queryRes.toList.mapM (measure query) >>= _) = _ at h
    obtain ⟨candis, hmap, hrest⟩ := Except.bind_eq_ok.mp h
    obtain ⟨ret, htake, hreply⟩ := Except.bind_eq_ok.mp hrest
    have hmapped := map_of_measured hmap
    have hnodup : candis.Nodup := List.Nodup.of_map _ (hmapped ▸ nodup_toList queryRes)
    obtain ⟨ranking, hperm, hsorted⟩ := exists_ranking hnodup
    have hlen : ranking.length = queryRes.size := by
      rw [← hperm.length_eq, Except.length_mapM hmap, Std.TreeSet.length_toList]
    rw [takeTop_eq hperm hsorted (hlen ▸ Nat.min_le_right _ _)] at htake
    obtain rfl := Except.ok.inj htake
    obtain rfl := Except.ok.inj hreply
    refine ⟨ranking, ?_, hsorted, fun candi => ?_, fun row hrow => ?_, ?_⟩
    · intro hnil
      rw [hnil] at hlen
      exact hsome hlen.symm
    · rw [← hperm.mem_iff]
      constructor
      · intro hcandi
        obtain ⟨row, hrow, hmeasure⟩ := Except.exists_of_mem_mapM hmap hcandi
        obtain ⟨rfl, hdist⟩ := measure_eq_ok.mp hmeasure
        exact ⟨hrow, hdist⟩
      · rintro ⟨hrow, hdist⟩
        obtain ⟨candi', hcandi', hmeasure⟩ := Except.of_mapM_ok hmap hrow
        rw [measure_eq_ok.mpr ⟨rfl, hdist⟩] at hmeasure
        exact Except.ok.inj hmeasure ▸ hcandi'
    · obtain ⟨candi, -, hmeasure⟩ := Except.of_mapM_ok hmap hrow
      obtain ⟨rfl, hdist⟩ := measure_eq_ok.mp hmeasure
      exact ⟨candi.dist, hdist⟩
    · rw [List.map_map, ← hlen, ← List.take_eq_take_min]
      rfl

/-- A recommender replies when all distances can be measured. -/
theorem keywords_ok_of_measured {json : Json.Text} {query : Str} {queryRes : QueryRes}
    (h : ∀ row ∈ queryRes.toList, ∃ dist, editDistance query row.1 = .ok dist) :
    ∃ reply, keywords json query queryRes = .ok reply := by
  unfold keywords
  split
  · exact ⟨[], rfl⟩
  · have hall : ∀ row ∈ queryRes.toList, ∃ candi, measure query row = .ok candi := by
      intro row hrow
      obtain ⟨dist, hok⟩ := h row hrow
      exact ⟨⟨row.1, row.2, dist⟩, measure_eq_ok.mpr ⟨rfl, hok⟩⟩
    obtain ⟨candis, hmap⟩ := Except.exists_mapM_ok.mpr hall
    have hlen : min 5 queryRes.size ≤ candis.length := by
      rw [Except.length_mapM hmap, Std.TreeSet.length_toList]
      exact Nat.min_le_right _ _
    obtain ⟨ret, hret⟩ := takeTop_ok hlen
    exact ⟨_, Except.bind_eq_ok.mpr ⟨candis, hmap, Except.bind_eq_ok.mpr ⟨ret, hret, rfl⟩⟩⟩

/-- **The reply of a recommender**, from the words that it got. -/
theorem keywords_eq_ok {json : Json.Text} {query reply : Str} {queryRes : QueryRes} :
    keywords json query queryRes = .ok reply ↔ Ranks json query queryRes.toList reply := by
  refine ⟨keywords_ranks, fun h => ?_⟩
  obtain ⟨reply', hreply'⟩ : ∃ reply', keywords json query queryRes = .ok reply' := by
    refine keywords_ok_of_measured ?_
    rcases h with ⟨hnil, -⟩ | ⟨-, -, -, -, hdist, -⟩
    · rw [hnil]
      exact fun row hrow => absurd hrow List.not_mem_nil
    · exact hdist
  rw [hreply', (keywords_ranks hreply').unique (fun _ => Iff.rfl) h]

/-! ## The rows -/

/-- A row of an answer: a word and the number of its second column. -/
def wordRow (elem : List Str) : Except Fault (Str × Int) :=
  match elem with
  | word :: frequency :: _ => .ok (word, atoi frequency)
  | _ => .error .danglingIterator

/-- All rows of all answers. -/
def rowsOf (ask : Str → Except Fault (List (List Str))) : List Str → Except Fault (List (Str × Int))
  | [] => .ok []
  | str :: singleChars => do
    let tempRes ← ask str
    let rows ← tempRes.mapM wordRow
    let rest ← rowsOf ask singleChars
    .ok (rows ++ rest)

theorem run_insertRow (queryRes : QueryRes) (elems : List (List Str)) :
    run insertRow queryRes elems = elems.mapM wordRow >>= fun rows =>
      .ok (rows.foldl (fun queryRes row => queryRes.insert row) queryRes) := by
  induction elems generalizing queryRes with
  | nil => rfl
  | cons elem elems ih =>
    rw [run_cons, List.mapM_cons]
    match elem with
    | [] | [_] => rfl
    | word :: frequency :: others =>
      have hinsert : insertRow queryRes (word :: frequency :: others) =
          .ok (queryRes.insert (word, atoi frequency)) := rfl
      have hrow : wordRow (word :: frequency :: others) = .ok (word, atoi frequency) := rfl
      rw [hinsert, hrow, Except.ok_bind, Except.ok_bind, ih]
      cases elems.mapM wordRow with
      | error fault => rfl
      | ok rows => rfl

/-- The loop over the characters puts all rows into the set. -/
theorem gatherFrom_eq (ask : Str → Except Fault (List (List Str))) (singleChars : List Str) :
    gatherFrom ask singleChars = rowsOf ask singleChars >>= fun rows =>
      .ok (rows.foldl (fun queryRes row => queryRes.insert row) ∅) := by
  have hfrom : ∀ (chars : List Str) (queryRes : QueryRes),
      run (fun queryRes str => do
        let tempRes ← ask str
        run insertRow queryRes tempRes) queryRes chars =
      rowsOf ask chars >>= fun rows =>
        .ok (rows.foldl (fun queryRes row => queryRes.insert row) queryRes) := by
    intro chars
    induction chars with
    | nil => exact fun _ => rfl
    | cons str chars ih =>
      intro queryRes
      rw [run_cons, rowsOf]
      cases ask str with
      | error fault => rfl
      | ok tempRes =>
        simp only [Except.ok_bind]
        rw [run_insertRow]
        cases tempRes.mapM wordRow with
        | error fault => rfl
        | ok rows =>
          simp only [Except.ok_bind]
          rw [ih]
          cases rowsOf ask chars with
          | error fault => rfl
          | ok rest => simp
  exact hfrom singleChars ∅

theorem mem_foldl_insert (rows : List (Str × Int)) (queryRes : QueryRes) (row : Str × Int) :
    row ∈ rows.foldl (fun queryRes row => queryRes.insert row) queryRes ↔
      row ∈ queryRes ∨ row ∈ rows := by
  induction rows generalizing queryRes with
  | nil => simp
  | cons first rows ih =>
    rw [List.foldl_cons, ih, Std.TreeSet.mem_insert, Std.LawfulEqCmp.compare_eq_iff_eq,
      List.mem_cons, eq_comm, or_assoc, or_left_comm]

/-- The set of the rows decides. -/
theorem Ranks.congr {json : Json.Text} {query : Str} {rows rows' : List (Str × Int)}
    (hsame : ∀ row, row ∈ rows ↔ row ∈ rows') {reply : Str} (h : Ranks json query rows reply) :
    Ranks json query rows' reply := by
  rcases h with ⟨rfl, rfl⟩ | ⟨ranking, hne, hsorted, hmem, hdist, hreply⟩
  · refine Or.inl ⟨List.eq_nil_iff_forall_not_mem.mpr fun row hrow => ?_, rfl⟩
    exact List.not_mem_nil ((hsame row).mpr hrow)
  · refine Or.inr ⟨ranking, hne, hsorted, fun candi => ?_, fun row hrow => ?_, hreply⟩
    · rw [hmem, hsame]
    · exact hdist row ((hsame row).mpr hrow)

/-- The set of some rows. -/
theorem mem_rowsSet {rows : List (Str × Int)} (row : Str × Int) :
    row ∈ (rows.foldl (fun queryRes row => queryRes.insert row) (∅ : QueryRes)).toList ↔
      row ∈ rows := by
  rw [Std.TreeSet.mem_toList, mem_foldl_insert]
  exact or_iff_right Std.TreeSet.not_mem_emptyc

/-- Rows whose distances can be measured have a reply. -/
theorem exists_ranks (json : Json.Text) {query : Str} {rows : List (Str × Int)}
    (h : ∀ row ∈ rows, ∃ dist, editDistance query row.1 = .ok dist) :
    ∃ reply, Ranks json query rows reply := by
  obtain ⟨reply, hreply⟩ : ∃ reply, keywords json query _ = .ok reply :=
    keywords_ok_of_measured fun row hrow => h row ((mem_rowsSet row).mp hrow)
  exact ⟨reply, (keywords_ranks hreply).congr mem_rowsSet⟩

/-- What a recommender does with its characters. -/
theorem gathered_eq_ok (hcomp : Heap.Compares (fun lhs rhs => Before rhs lhs) comp)
    {json : Json.Text} {query reply : Str} {ask : Str → Except Fault (List (List Str))}
    {singleChars : List Str} :
    gatherFrom ask singleChars >>= rankedKeywords comp json query = .ok reply ↔
      ∃ rows, rowsOf ask singleChars = .ok rows ∧ Ranks json query rows reply := by
  rw [gatherFrom_eq]
  cases hrows : rowsOf ask singleChars with
  | error fault => simp
  | ok rows =>
    rw [Except.ok_bind, Except.ok_bind, rankedKeywords_eq hcomp, keywords_eq_ok]
    constructor
    · exact fun h => ⟨rows, rfl, h.congr mem_rowsSet⟩
    · rintro ⟨rows', heq, h⟩
      obtain rfl := Except.ok.inj heq
      exact h.congr fun row => (mem_rowsSet row).symm

/-- The rows of the characters. -/
theorem mem_rowsOf {ask : Str → Except Fault (List (List Str))} {singleChars : List Str}
    {rows : List (Str × Int)} (h : rowsOf ask singleChars = .ok rows) (row : Str × Int) :
    row ∈ rows ↔ ∃ str ∈ singleChars, ∃ tempRes, ask str = .ok tempRes ∧
      ∃ elem ∈ tempRes, wordRow elem = .ok row := by
  induction singleChars generalizing rows with
  | nil =>
    obtain rfl : [] = rows := Except.ok.inj h
    simp
  | cons str singleChars ih =>
    obtain ⟨tempRes, hask, hrest⟩ := Except.bind_eq_ok.mp h
    obtain ⟨first, hfirst, hrest⟩ := Except.bind_eq_ok.mp hrest
    obtain ⟨others, hothers, heq⟩ := Except.bind_eq_ok.mp hrest
    obtain rfl := Except.ok.inj heq
    have hmem : row ∈ first ↔ ∃ elem ∈ tempRes, wordRow elem = .ok row := by
      refine ⟨Except.exists_of_mem_mapM hfirst, fun ⟨elem, helem, hrow⟩ => ?_⟩
      obtain ⟨row', hrow', heq⟩ := Except.of_mapM_ok hfirst helem
      rw [hrow] at heq
      exact Except.ok.inj heq ▸ hrow'
    rw [List.mem_append, ih hothers, hmem]
    simp [hask]

/-- All characters are answered. -/
theorem ask_of_rowsOf {ask : Str → Except Fault (List (List Str))} {singleChars : List Str}
    {rows : List (Str × Int)} (h : rowsOf ask singleChars = .ok rows) {str : Str}
    (hstr : str ∈ singleChars) : ∃ tempRes, ask str = .ok tempRes := by
  induction singleChars generalizing rows with
  | nil => exact absurd hstr List.not_mem_nil
  | cons first singleChars ih =>
    obtain ⟨tempRes, hask, hrest⟩ := Except.bind_eq_ok.mp h
    obtain ⟨_, _, hrest⟩ := Except.bind_eq_ok.mp hrest
    obtain ⟨others, hothers, -⟩ := Except.bind_eq_ok.mp hrest
    rcases List.mem_cons.mp hstr with rfl | hstr
    · exact ⟨tempRes, hask⟩
    · exact ih hothers hstr

/-- Characters and answers with the same elements give the same rows. -/
theorem rowsOf_same {ask ask' : Str → Except Fault (List (List Str))}
    {singleChars singleChars' : List Str} {rows rows' : List (Str × Int)}
    (h : rowsOf ask singleChars = .ok rows) (h' : rowsOf ask' singleChars' = .ok rows')
    (hchars : ∀ str, str ∈ singleChars ↔ str ∈ singleChars')
    (hanswers : ∀ str ∈ singleChars, ∀ tempRes tempRes', ask str = .ok tempRes →
      ask' str = .ok tempRes' → ∀ elem, elem ∈ tempRes ↔ elem ∈ tempRes') (row : Str × Int) :
    row ∈ rows ↔ row ∈ rows' := by
  rw [mem_rowsOf h, mem_rowsOf h']
  constructor
  · rintro ⟨str, hstr, tempRes, hask, elem, helem, hrow⟩
    have hstr' := (hchars str).mp hstr
    obtain ⟨tempRes', hask'⟩ := ask_of_rowsOf h' hstr'
    have hsame := hanswers str hstr tempRes tempRes' hask hask' elem
    exact ⟨str, hstr', tempRes', hask', elem, hsame.mp helem, hrow⟩
  · rintro ⟨str, hstr', tempRes', hask', elem, helem, hrow⟩
    have hstr := (hchars str).mpr hstr'
    obtain ⟨tempRes, hask⟩ := ask_of_rowsOf h hstr
    have hsame := hanswers str hstr tempRes tempRes' hask hask' elem
    exact ⟨str, hstr, tempRes, hask, elem, hsame.mpr helem, hrow⟩

/-! ## The recommenders -/

/-- On the tables of a dictionary. -/
theorem EnRecommender.recommender_ranked (json : Json.Text) (tables : DictTables)
    (queryString : Str) :
    EnRecommender.recommender json tables queryString =
      EnRecommender.ranked plainCandidate json tables.join queryString := by
  have hqueue : rankedKeywords plainCandidate json queryString = keywords json queryString :=
    funext (rankedKeywords_eq compares_plain json queryString)
  rw [EnRecommender.ranked, hqueue]
  rfl

theorem ChRecommender.recommender_ranked (json : Json.Text) (tables : DictTables)
    (queryWord : Str) :
    ChRecommender.recommender json tables queryWord =
      ChRecommender.ranked plainCandidate json tables.join queryWord := by
  have hqueue : rankedKeywords plainCandidate json queryWord = keywords json queryWord :=
    funext (rankedKeywords_eq compares_plain json queryWord)
  rw [ChRecommender.ranked, hqueue]
  unfold ChRecommender.recommender chQueryRes
  cases LightSearch.cutString queryWord <;> rfl

theorem MixedRecommender.recommender_ranked (json : Json.Text) (en cn : DictTables)
    (queryString : Str) :
    MixedRecommender.recommender json en cn queryString =
      MixedRecommender.ranked plainCandidate json en.join cn.join queryString := by
  have hqueue : rankedKeywords plainCandidate json queryString = keywords json queryString :=
    funext (rankedKeywords_eq compares_plain json queryString)
  have hone : mixedOne en cn = (fun queryRes str => do
      let tempRes ← mixedAsks en.join cn.join str
      run insertRow queryRes tempRes) := by
    funext queryRes str
    unfold mixedOne mixedAsks
    split <;> rfl
  rw [MixedRecommender.ranked, hqueue]
  unfold MixedRecommender.recommender mixedQueryRes
  rw [hone]
  cases LightSearch.cutString queryString <;> rfl

/-- **What the recommenders reply.** On any answers of the database, each recommender returns exactly when
its lookups are answered and the distances of the words can be measured, and then the first five words by
distance, frequency and word, or nothing when no row was found. The reply depends on the set of the rows
alone, and the queue never asks `BetterCandidate` about two equivalent candidates. -/
theorem recommenders_rank (json : Json.Text) (en cn : Str → List (List Str)) (query : Str) :
    (∀ reply, EnRecommender.ranked plainCandidate json en query = .ok reply ↔
      ∃ rows, rowsOf (asks enSelect en) (query.map fun ch => [ch]) = .ok rows ∧
        Ranks json query rows reply) ∧
    (∀ reply, ChRecommender.ranked plainCandidate json cn query = .ok reply ↔
      ∃ singleChars rows, cutString query = .ok singleChars ∧
        rowsOf (asks cnSelect cn) singleChars = .ok rows ∧ Ranks json query rows reply) ∧
    (∀ reply, MixedRecommender.ranked plainCandidate json en cn query = .ok reply ↔
      ∃ singleChars rows, cutString query = .ok singleChars ∧
        rowsOf (mixedAsks en cn) singleChars = .ok rows ∧ Ranks json query rows reply) ∧
    (∀ rows, (∀ row ∈ rows, ∃ dist, editDistance query row.1 = .ok dist) →
      ∃ reply, Ranks json query rows reply) ∧
    (∀ ask ask' singleChars singleChars' rows rows' reply reply',
      rowsOf ask singleChars = .ok rows → rowsOf ask' singleChars' = .ok rows' →
      (∀ str, str ∈ singleChars ↔ str ∈ singleChars') →
      (∀ str ∈ singleChars, ∀ tempRes tempRes', ask str = .ok tempRes → ask' str = .ok tempRes' →
        ∀ elem, elem ∈ tempRes ↔ elem ∈ tempRes') →
      Ranks json query rows reply → Ranks json query rows' reply' → reply = reply') ∧
    EnRecommender.ranked checkedCandidate json en query =
      EnRecommender.ranked plainCandidate json en query ∧
    ChRecommender.ranked checkedCandidate json cn query =
      ChRecommender.ranked plainCandidate json cn query ∧
    MixedRecommender.ranked checkedCandidate json en cn query =
      MixedRecommender.ranked plainCandidate json en cn query := by
  have hchecked : rankedKeywords checkedCandidate json query =
      rankedKeywords plainCandidate json query := by
    funext queryRes
    rw [rankedKeywords_eq compares_checked, rankedKeywords_eq compares_plain]
  refine ⟨fun reply => gathered_eq_ok compares_plain, fun reply => ?_, fun reply => ?_,
    fun rows => exists_ranks json, ?_, ?_, ?_, ?_⟩
  · unfold ChRecommender.ranked
    rw [Except.bind_eq_ok]
    simp only [gathered_eq_ok compares_plain, exists_and_left]
  · unfold MixedRecommender.ranked
    rw [Except.bind_eq_ok]
    simp only [gathered_eq_ok compares_plain, exists_and_left]
  · intro ask ask' singleChars singleChars' rows rows' reply reply' h h' hchars hanswers hreply hreply'
    exact hreply.unique (rowsOf_same h h' hchars hanswers) hreply'
  · rw [EnRecommender.ranked, EnRecommender.ranked, hchecked]
  · rw [ChRecommender.ranked, ChRecommender.ranked, hchecked]
  · rw [MixedRecommender.ranked, MixedRecommender.ranked, hchecked]

/-- Answers in which a row comes twice. -/
def eatAnswers (str : Str) : List (List Str) :=
  if str = lit "e" ∨ str = lit "t" then [[lit "tea", lit "2"], [lit "eat", lit "1"]] else []

/-- The reply for `eat`: the word itself comes before the more frequent one. -/
def eatReply : Str :=
  Json.compact.dump (.object [(lit "Keywords", .array [.string (lit "eat"), .string (lit "tea")])])

theorem recommenders_rank_eat :
    ∃ rows, rowsOf (asks enSelect eatAnswers) ((lit "eat").map fun ch => [ch]) = .ok rows ∧
      (lit "tea", 2) ∈ rows ∧ Ranks Json.compact (lit "eat") rows eatReply := by
  have hreply : EnRecommender.ranked plainCandidate Json.compact eatAnswers (lit "eat") = .ok eatReply := by
    decide +kernel
  have hasked : rowsOf (asks enSelect eatAnswers) ((lit "eat").map fun ch => [ch]) =
      .ok [(lit "tea", 2), (lit "eat", 1), (lit "tea", 2), (lit "eat", 1)] := by
    decide +kernel
  obtain ⟨rows, hrows, hranks⟩ :=
    ((recommenders_rank Json.compact eatAnswers eatAnswers (lit "eat")).1 eatReply).mp hreply
  obtain rfl := Except.ok.inj (hasked.symm.trans hrows)
  exact ⟨_, hasked, List.mem_cons_self, hranks⟩

end LightSearch
