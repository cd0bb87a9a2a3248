import LightSearch.Lib.Cosine
import LightSearch.Lib.Multimap
import LightSearch.Utility.PageSearch

/-!
# The order of the pages

`doQuery` weighs the query words, takes the weights of the pages that it found for these words from
the table, and puts the pages into a multimap under the cosine of the two. The steps of one query are
`rank`; `resultIds` are the pages that `getQueryResult` goes through.

When every word can stand between quotes and the table has a weight for each page and word, no step
faults (`getQueryWordsWeight_quotable`, `getPageWeight_quotable`, `getCos_ok`). Over the reals the key
of a page is then a cosine over the query words (`cosOf_exactReals`).
-/

set_option autoImplicit false

namespace LightSearch

open Cxx HashMap

variable {R : Type}

namespace WebPageQuery

/-- `select count(word) from invertLib where word = '...'`. -/
def countSelect : Select where
  before := lit "select count(word) from invertLib where word = "
  after := []

/-- `select weight from invertLib where word = '...' and webPageId = ...`. -/
def weightSelect (id : Nat) : Select where
  before := lit "select weight from invertLib where word = "
  after := lit " and webPageId = " ++ decimal id

/-- The weight of one query word. -/
def queryWordWeight (A : Arith R) (webPageLib : List PageRow) (invertLib : List (InvertRow R))
    (q : WebPageQuery R) (elem : Str) : Except Fault R := do
  let value ← countSelect.denoted (countSelect.sql elem)
  let DF := (selectIds invertLib value).length
  .ok (rawWeight A webPageLib.length (q.tmpQueryWords.count elem) DF)

/-- `getQueryWordsWeight`. -/
def getQueryWordsWeight (A : Arith R) (webPageLib : List PageRow) (invertLib : List (InvertRow R))
    (q : WebPageQuery R) : Except Fault (WebPageQuery R) :=
  if q.intersectionId.length = 0 then .ok q
  else do
    let weights ← q.queryWords.mapM (queryWordWeight A webPageLib invertLib q)
    .ok { q with queryWeight := weights.map fun elem => A.div elem (A.sqrt (normSum A weights)) }

/-- The weight of a word on a page. -/
def pageWordWeight (invertLib : List (InvertRow R)) (id : Nat) (word : Str) : Except Fault R := do
  let value ← (weightSelect id).denoted ((weightSelect id).sql word)
  firstWeight invertLib id value

/-- `getPageWeight`. -/
def getPageWeight (invertLib : List (InvertRow R)) (q : WebPageQuery R) :
    Except Fault (WebPageQuery R) := do
  let pageWeight ← Run.run (fun (pageWeight : Map Nat (List R)) id => do
    let weights ← q.queryWords.mapM (pageWordWeight invertLib id)
    .ok (pageWeight.insert id weights)) ∅ q.intersectionId
  .ok { q with pageWeight := pageWeight }

/-- The loop over the components in `getCos`: `xy`, and the squares of `x` and `y`. -/
def cosLoop (A : Arith R) (xy x y : R) : List R → List R → Except Fault (R × R × R)
  | _, [] => .ok (xy, x, y)
  | [], _ :: _ => .error .danglingIterator
  | a :: queryWeight, b :: pageWeight =>
    cosLoop A (A.add xy (A.mul a b)) (A.add x (A.mul a a)) (A.add y (A.mul b b)) queryWeight pageWeight

/-- The `cos` of a page. -/
def cosOf (A : Arith R) (queryWeight pageWeight : List R) : Except Fault R := do
  let (xy, x, y) ← cosLoop A (A.ofNat 0) (A.ofNat 0) (A.ofNat 0) queryWeight pageWeight
  .ok (A.div xy (A.mul (A.sqrt x) (A.sqrt y)))

/-- `std::greater` of the keys of `_pageCos`. -/
def Greater (gt : R → R → Bool) (a b : R × Nat) : Prop := gt a.1 b.1 = true

instance (gt : R → R → Bool) : DecidableRel (Greater gt) :=
  fun a b => inferInstanceAs (Decidable (gt a.1 b.1 = true))

/-- `getCos`. -/
def getCos (A : Arith R) (gt : R → R → Bool) (o : Unordered) (q : WebPageQuery R) :
    Except Fault (WebPageQuery R) := do
  let elems ← (inOrder o q.pageWeight).mapM fun elem => do
    .ok ((← cosOf A q.queryWeight elem.2), elem.1)
  .ok { q with pageCos := Multimap.fill (Greater gt) elems }

/-- The steps of `doQuery` before `getQueryResult`. The loops of `getIntersectionId` and `getCos` go
through their maps in the orders `o` and `o'`. -/
def rank (A : Arith R) (gt : R → R → Bool) (o o' : Unordered) (segment : Str → List Str)
    (webPageLib : List PageRow) (invertLib : List (InvertRow R)) (q : WebPageQuery R)
    (sentence : Str) : Except Fault (WebPageQuery R) := do
  let q ← (q.cut segment sentence).getIntersectionId o invertLib
  let q ← q.getQueryWordsWeight A webPageLib invertLib
  let q ← q.getPageWeight invertLib
  q.getCos A gt o'

/-- The steps of `doQuery` before `getCos`. -/
def weighed (A : Arith R) (o : Unordered) (segment : Str → List Str) (webPageLib : List PageRow)
    (invertLib : List (InvertRow R)) (q : WebPageQuery R) (sentence : Str) :
    Except Fault (WebPageQuery R) := do
  let q ← (q.cut segment sentence).getIntersectionId o invertLib
  let q ← q.getQueryWordsWeight A webPageLib invertLib
  q.getPageWeight invertLib

theorem rank_eq (A : Arith R) (gt : R → R → Bool) (o o' : Unordered) (segment : Str → List Str)
    (webPageLib : List PageRow) (invertLib : List (InvertRow R)) (q : WebPageQuery R)
    (sentence : Str) :
    q.rank A gt o o' segment webPageLib invertLib sentence =
      q.weighed A o segment webPageLib invertLib sentence >>= fun q => q.getCos A gt o' := by
  unfold rank weighed
  simp only [bind_assoc]

/-- The ids in the order of `getQueryResult`, without those that have no row in `webPageLib`. -/
def resultIds (webPageLib : List PageRow) (q : WebPageQuery R) : List Nat :=
  (q.pageCos.map Prod.snd).filter fun id => ∃ row ∈ webPageLib, row.id = id

/-! ## The steps when all words can be asked for -/

theorem countSelect_wellFormed : countSelect.WellFormed := by
  constructor <;> decide

theorem weightSelect_wellFormed (id : Nat) : (weightSelect id).WellFormed := by
  have hafter : ∀ ch ∈ (weightSelect id).after, Quotable ch := by
    have htext : ∀ ch ∈ lit " and webPageId = ", Quotable ch := by decide
    intro ch hch
    rcases List.mem_append.mp hch with hch | hch
    · exact htext ch hch
    · exact quotable_of_isdigit (isdigit_of_mem_decimal hch)
  refine ⟨?_, fun ch hch => (hafter ch hch).2, fun hmem => (hafter 0 hmem).1 rfl⟩
  show 0 ∉ lit "select weight from invertLib where word = "
  decide

variable {A : Arith R} {gt : R → R → Bool} {invertLib : List (InvertRow R)} {q : WebPageQuery R}

/-- The loop over the words when they can be asked for. -/
theorem mapM_queryWordWeight (webPageLib : List PageRow)
    (hwords : ∀ word ∈ q.queryWords, AllQuotable word) :
    q.queryWords.mapM (queryWordWeight A webPageLib invertLib q) =
      .ok (q.queryWords.map fun elem => rawWeight A webPageLib.length
        (q.tmpQueryWords.count elem) (selectIds invertLib elem).length) := by
  apply Except.mapM_ok
  intro elem helem
  unfold queryWordWeight
  rw [denoted_quotable countSelect_wellFormed (hwords elem helem), Except.ok_bind]

/-- The query weights of words that can be asked for. -/
theorem getQueryWordsWeight_quotable (webPageLib : List PageRow)
    (hwords : ∀ word ∈ q.queryWords, AllQuotable word) (hids : q.intersectionId ≠ []) :
    let weights := q.queryWords.map fun elem => rawWeight A webPageLib.length
      (q.tmpQueryWords.count elem) (selectIds invertLib elem).length
    q.getQueryWordsWeight A webPageLib invertLib = .ok { q with
      queryWeight := weights.map fun elem => A.div elem (A.sqrt (normSum A weights)) } := by
  intro weights
  unfold getQueryWordsWeight
  rw [if_neg fun h => hids (List.length_eq_zero_iff.mp h), mapM_queryWordWeight webPageLib hwords,
    Except.ok_bind]

/-- The page weights, when the table has one for each word and page. -/
theorem getPageWeight_quotable (hwords : ∀ word ∈ q.queryWords, AllQuotable word)
    {weight : Nat → Str → R} (hweight : ∀ id ∈ q.intersectionId, ∀ word ∈ q.queryWords,
      firstWeight invertLib id word = .ok (weight id word)) :
    q.getPageWeight invertLib = .ok { q with
      pageWeight := assign ∅ (fun id => q.queryWords.map (weight id)) q.intersectionId } := by
  have hpage : ∀ id ∈ q.intersectionId,
      q.queryWords.mapM (pageWordWeight invertLib id) = .ok (q.queryWords.map (weight id)) := by
    intro id hid
    apply Except.mapM_ok
    intro word hword
    unfold pageWordWeight
    rw [denoted_quotable (weightSelect_wellFormed id) (hwords word hword), Except.ok_bind,
      hweight id hid word hword]
  have hloop : ∀ (ids : List Nat) (m : Map Nat (List R)), (∀ id ∈ ids, id ∈ q.intersectionId) →
      Run.run (fun (pageWeight : Map Nat (List R)) id => do
        let weights ← q.queryWords.mapM (pageWordWeight invertLib id)
        Except.ok (pageWeight.insert id weights)) m ids =
      .ok (assign m (fun id => q.queryWords.map (weight id)) ids) := by
    intro ids
    induction ids with
    | nil => exact fun _ _ => rfl
    | cons id ids ih =>
      intro m hids
      rw [Run.run_cons, hpage id (hids id List.mem_cons_self), Except.ok_bind, Except.ok_bind,
        ih _ fun id' hid' => hids id' (List.mem_cons_of_mem _ hid')]
      rfl
  unfold getPageWeight
  rw [hloop q.intersectionId ∅ fun _ hid => hid, Except.ok_bind]

/-- The multimap, when each page has its cosine. -/
theorem getCos_ok (o : Unordered) (cos : Nat → R)
    (hcos : ∀ elem ∈ inOrder o q.pageWeight, cosOf A q.queryWeight elem.2 = .ok (cos elem.1)) :
    let elems := ((inOrder o q.pageWeight).map Prod.fst).map fun id => (cos id, id)
    q.getCos A gt o = .ok { q with pageCos := Multimap.fill (Greater gt) elems } := by
  intro elems
  have hone : ∀ elem ∈ inOrder o q.pageWeight, (do
      Except.ok ((← cosOf A q.queryWeight elem.2), elem.1)) = .ok (cos elem.1, elem.1) := by
    intro elem helem
    rw [hcos elem helem, Except.ok_bind]
  have helems : elems = (inOrder o q.pageWeight).map fun elem => (cos elem.1, elem.1) :=
    List.map_map
  unfold getCos
  rw [Except.mapM_ok hone, Except.ok_bind, helems]

/-! ## When a query can be ranked -/

/-- The words that can be asked for: a token that cannot be put between quotes is a single character. -/
theorem quotable_of_getIntersectionId_ok {segment : Str → List Str} (hcut : SymbolsAlone segment)
    {o : Unordered} {sentence : Str} {q' : WebPageQuery R}
    (h : (q.cut segment sentence).getIntersectionId o invertLib = .ok q') :
    ∀ word ∈ (q.cut segment sentence).queryWords, AllQuotable word := by
  intro word hword
  rcases hcut.cases (mem_queryWords.mp hword).1 with hall | ⟨ch, rfl, hch⟩
  · exact hall
  · exact absurd (quotable_of_getIntersectionId h hword) hch

theorem firstWeight_exists_ok {id : Nat} {word : Str} :
    (∃ weight, firstWeight invertLib id word = .ok weight) ↔ id ∈ selectIds invertLib word := by
  have hrow : id ∈ selectIds invertLib word ↔ ∃ weight, weight ∈ selectWeights invertLib word id := by
    rw [mem_selectIds]
    unfold selectWeights
    simp only [List.mem_map, List.mem_filter, decide_eq_true_eq]
    constructor
    · rintro ⟨row, hrow, hword, hid⟩
      exact ⟨row.weight, row, ⟨hrow, hword, hid⟩, rfl⟩
    · rintro ⟨_, row, ⟨hrow, hword, hid⟩, rfl⟩
      exact ⟨row, hrow, hword, hid⟩
  rw [hrow]
  unfold firstWeight
  cases selectWeights invertLib word id with
  | nil =>
    constructor
    · rintro ⟨_, h⟩
      cases h
    · rintro ⟨_, h⟩
      exact absurd h List.not_mem_nil
  | cons weight weights => exact iff_of_true ⟨weight, rfl⟩ ⟨weight, List.mem_cons_self⟩

/-- The loop of `getCos` stays inside the query weights when there are enough of them. -/
theorem cosLoop_ok (A : Arith R) (xy x y : R) {queryWeight pageWeight : List R}
    (h : pageWeight.length ≤ queryWeight.length) :
    ∃ sums, cosLoop A xy x y queryWeight pageWeight = .ok sums := by
  induction pageWeight generalizing xy x y queryWeight with
  | nil =>
    cases queryWeight with
    | nil => exact ⟨_, rfl⟩
    | cons a queryWeight => exact ⟨_, rfl⟩
  | cons b pageWeight ih =>
    cases queryWeight with
    | nil => exact absurd h (Nat.not_succ_le_zero _)
    | cons a queryWeight => exact ih _ _ _ (Nat.le_of_succ_le_succ h)

/-- If there are pages, the query has a weight for each word. -/
theorem getQueryWordsWeight_ok (A : Arith R) (webPageLib : List PageRow)
    (hwords : ∀ word ∈ q.queryWords, AllQuotable word) :
    ∃ queryWeight, q.getQueryWordsWeight A webPageLib invertLib =
        .ok { q with queryWeight := queryWeight } ∧
      (q.intersectionId ≠ [] → queryWeight.length = q.queryWords.length) := by
  by_cases hnil : q.intersectionId = []
  · exact ⟨q.queryWeight, if_pos (List.length_eq_zero_iff.mpr hnil), fun hne => absurd hnil hne⟩
  · refine ⟨_, getQueryWordsWeight_quotable webPageLib hwords hnil, fun _ => ?_⟩
    rw [List.length_map, List.length_map]

/-- Each page has a weight for each word, when the table has the rows. -/
theorem getPageWeight_exists (A : Arith R) (hwords : ∀ word ∈ q.queryWords, AllQuotable word)
    (hrows : ∀ id ∈ q.intersectionId, ∀ word ∈ q.queryWords, id ∈ selectIds invertLib word) :
    ∃ weights : Nat → List R, (∀ id, (weights id).length = q.queryWords.length) ∧
      q.getPageWeight invertLib = .ok { q with
        pageWeight := assign ∅ weights q.intersectionId } := by
  have hweight : ∀ id word, ∃ weight, id ∈ q.intersectionId → word ∈ q.queryWords →
      firstWeight invertLib id word = .ok weight := by
    intro id word
    by_cases hboth : id ∈ q.intersectionId ∧ word ∈ q.queryWords
    · obtain ⟨weight, hweight⟩ := firstWeight_exists_ok.mpr (hrows id hboth.1 word hboth.2)
      exact ⟨weight, fun _ _ => hweight⟩
    · exact ⟨A.ofNat 0, fun hid hword => absurd ⟨hid, hword⟩ hboth⟩
  choose weight hweight using hweight
  refine ⟨fun id => q.queryWords.map (weight id), fun id => List.length_map _, ?_⟩
  exact getPageWeight_quotable hwords fun id hid word hword => hweight id word hid hword

/-- Each page gets a number, when there are enough query weights. -/
theorem getCos_exists (A : Arith R) (gt : R → R → Bool) (o : Unordered) {weights : Nat → List R}
    (hpages : q.pageWeight = assign ∅ weights q.intersectionId)
    (hlen : ∀ id ∈ q.intersectionId, (weights id).length ≤ q.queryWeight.length) :
    ∃ pageCos, q.getCos A gt o = .ok { q with pageCos := pageCos } ∧
      ∀ id, id ∈ pageCos.map Prod.snd ↔ id ∈ q.intersectionId := by
  have hcos : ∀ id, ∃ cos, id ∈ q.intersectionId → cosOf A q.queryWeight (weights id) = .ok cos := by
    intro id
    by_cases hid : id ∈ q.intersectionId
    · obtain ⟨sums, hsums⟩ := cosLoop_ok A (A.ofNat 0) (A.ofNat 0) (A.ofNat 0) (hlen id hid)
      exact ⟨_, fun _ => Except.bind_eq_ok.mpr ⟨sums, hsums, rfl⟩⟩
    · exact ⟨A.ofNat 0, fun h => absurd h hid⟩
  choose cos hcos using hcos
  have hkeys : ∀ id v, (id, v) ∈ inOrder o q.pageWeight ↔ id ∈ q.intersectionId ∧ weights id = v := by
    intro id v
    rw [hpages]
    exact mem_inOrder_assign
  have helems : ∀ elem ∈ inOrder o q.pageWeight, cosOf A q.queryWeight elem.2 = .ok (cos elem.1) := by
    intro elem helem
    obtain ⟨hid, heq⟩ := (hkeys elem.1 elem.2).mp helem
    rw [← heq]
    exact hcos elem.1 hid
  refine ⟨_, getCos_ok o cos helems, fun id => ?_⟩
  rw [((Multimap.fill_perm (Greater gt) _).map Prod.snd).mem_iff, List.map_map, List.map_map,
    List.mem_map]
  constructor
  · rintro ⟨elem, helem, rfl⟩
    exact ((hkeys elem.1 elem.2).mp helem).1
  · intro hid
    exact ⟨(id, weights id), (hkeys id _).mpr ⟨hid, rfl⟩, rfl⟩

/-- **The steps of a query succeed** when its words can be asked for and the table has a row for each
of them and each id that it finds. The multimap then has these ids. -/
theorem rank_ok (A : Arith R) (gt : R → R → Bool) (o o' : Unordered) {segment : Str → List Str}
    (webPageLib : List PageRow) {contents sentence : Str}
    (hq : q = (WebPageQuery.new contents).cut segment sentence)
    (hwords : ∀ word ∈ q.queryWords, AllQuotable word)
    (hrows : ∀ id, AsMany invertLib q.queryWords id →
      ∀ word ∈ q.queryWords, id ∈ selectIds invertLib word) :
    ∃ q', (WebPageQuery.new contents).rank A gt o o' segment webPageLib invertLib sentence = .ok q' ∧
      q'.queryWords = q.queryWords ∧
      ∀ id, id ∈ q'.pageCos.map Prod.snd ↔ AsMany invertLib q.queryWords id := by
  have hstart : q.intersectionId = [] := by
    rw [hq]
    rfl
  -- the object after each step
  obtain ⟨q₁, hstep₁, hwords₁, hids⟩ : ∃ q₁ : WebPageQuery R,
      q.getIntersectionId o invertLib = .ok q₁ ∧ q₁.queryWords = q.queryWords ∧
      ∀ id, id ∈ q₁.intersectionId ↔ AsMany invertLib q.queryWords id := by
    refine ⟨_, getIntersectionId_quotable o invertLib hwords, rfl, fun id => ?_⟩
    rw [hstart]
    exact mem_getIntersectionId
  rw [← hwords₁] at hwords hrows
  obtain ⟨queryWeight, hstep₂, hlen⟩ := getQueryWordsWeight_ok A webPageLib hwords
  let q₂ : WebPageQuery R := { q₁ with queryWeight := queryWeight }
  have hwords₂ : ∀ word ∈ q₂.queryWords, AllQuotable word := hwords
  have hrows₂ : ∀ id ∈ q₂.intersectionId, ∀ word ∈ q₂.queryWords, id ∈ selectIds invertLib word :=
    fun id hid => hrows id (hwords₁ ▸ (hids id).mp hid)
  obtain ⟨weights, hweights, hstep₃⟩ := getPageWeight_exists A hwords₂ hrows₂
  let q₃ : WebPageQuery R := { q₂ with pageWeight := assign ∅ weights q₂.intersectionId }
  have henough : ∀ id ∈ q₃.intersectionId, (weights id).length ≤ q₃.queryWeight.length :=
    fun id hid => Nat.le_of_eq ((hweights id).trans (hlen (List.ne_nil_of_mem hid)).symm)
  obtain ⟨pageCos, hstep₄, hcos⟩ := getCos_exists A gt o' rfl henough
  refine ⟨{ q₃ with pageCos := pageCos }, ?_, hwords₁, fun id => (hcos id).trans (hids id)⟩
  unfold rank
  rw [← hq, hstep₁, Except.ok_bind, hstep₂, Except.ok_bind, hstep₃, Except.ok_bind]
  exact hstep₄

/-- A query that was ranked had rows for its words. -/
theorem of_rank_ok {A : Arith R} {gt : R → R → Bool} {o o' : Unordered} {segment : Str → List Str}
    (hcut : SymbolsAlone segment) {webPageLib : List PageRow} {contents sentence : Str}
    (hq : q = (WebPageQuery.new contents).cut segment sentence) {q' : WebPageQuery R}
    (hrun : (WebPageQuery.new contents).rank A gt o o' segment webPageLib invertLib sentence =
      .ok q') :
    (∀ word ∈ q.queryWords, AllQuotable word) ∧ ∀ id, AsMany invertLib q.queryWords id →
      ∀ word ∈ q.queryWords, id ∈ selectIds invertLib word := by
  obtain ⟨q₁, hstep₁, hrest⟩ := Except.bind_eq_ok.mp hrun
  have hwords := quotable_of_getIntersectionId_ok hcut hstep₁
  rw [← hq] at hstep₁ hwords
  refine ⟨hwords, fun id hid word hword => ?_⟩
  have hstart : q.intersectionId = [] := by
    rw [hq]
    rfl
  rw [getIntersectionId_quotable o invertLib hwords, hstart] at hstep₁
  obtain rfl := Except.ok.inj hstep₁
  obtain ⟨q₂, hstep₂, hrest⟩ := Except.bind_eq_ok.mp hrest
  obtain ⟨queryWeight, hstep₂', -⟩ := getQueryWordsWeight_ok (q := { q with
    intersectionId := LightSearch.getIntersectionId o invertLib q.queryWords [] }) A webPageLib hwords
  obtain rfl := Except.ok.inj (hstep₂'.symm.trans hstep₂)
  -- the weight of the word on the page was asked for
  obtain ⟨q₃, hstep₃, -⟩ := Except.bind_eq_ok.mp hrest
  obtain ⟨pageWeight, hloop, -⟩ := Except.bind_eq_ok.mp hstep₃
  obtain ⟨_, _, hpage⟩ := Run.run_step hloop (mem_getIntersectionId.mpr hid)
  obtain ⟨weights, hweights, -⟩ := Except.bind_eq_ok.mp hpage
  obtain ⟨weight, -, hweight⟩ := Except.of_mapM_ok hweights hword
  unfold pageWordWeight at hweight
  rw [denoted_quotable (weightSelect_wellFormed id) (hwords word hword), Except.ok_bind] at hweight
  exact firstWeight_exists_ok.mp ⟨weight, hweight⟩

/-! ## Over the reals -/

/-- `getCos` over the reals: the cosine over the words of the loop. -/
theorem cosLoop_exactReals (x y : Str → ℝ) (words : List Str) (a b c : ℝ) :
    cosLoop exactReals (some a) (some b) (some c) (words.map fun w => some (x w))
        (words.map fun w => some (y w)) =
      .ok (some (a + (words.map fun w => x w * y w).sum), some (b + (words.map fun w => x w * x w).sum),
        some (c + (words.map fun w => y w * y w).sum)) := by
  induction words generalizing a b c with
  | nil => simp only [List.map_nil, cosLoop, List.sum_nil, add_zero]
  | cons w words ih =>
    rw [List.map_cons, List.map_cons, cosLoop]
    have hstep := ih (a + x w * y w) (b + x w * x w) (c + y w * y w)
    simp only [List.map_cons, List.sum_cons, ← add_assoc]
    exact hstep

open Cosine in
/-- The sums of `getCos` are inner products. -/
theorem cosLoop_dot {words : List Str} (hwords : words.Nodup) (x y : Str → ℝ) :
    cosLoop exactReals (exactReals.ofNat 0) (exactReals.ofNat 0) (exactReals.ofNat 0)
        (words.map fun w => some (x w)) (words.map fun w => some (y w)) =
      .ok (some (dot words.toFinset x y), some (dot words.toFinset x x),
        some (dot words.toFinset y y)) := by
  have hdot : ∀ u v : Str → ℝ, (words.map fun w => u w * v w).sum = dot words.toFinset u v :=
    fun u v => (List.sum_toFinset _ hwords).symm
  have hzero : exactReals.ofNat 0 = some (0 : ℝ) := congrArg some Nat.cast_zero
  rw [hzero, cosLoop_exactReals]
  simp only [zero_add, hdot]

open Cosine in
theorem sqrt_dot (words : Finset Str) (u : Str → ℝ) :
    exactReals.sqrt (some (dot words u u)) = some (length words u) :=
  if_pos (dot_self_nonneg words u)

open Cosine in
/-- The number under which a page comes, when neither length is zero. -/
theorem cosOf_exactReals {x y : Str → ℝ} {words : List Str} (hwords : words.Nodup)
    (hx : length words.toFinset x ≠ 0) (hy : length words.toFinset y ≠ 0) :
    cosOf exactReals (words.map fun w => some (x w)) (words.map fun w => some (y w)) =
      .ok (some (cosine words.toFinset x y)) := by
  unfold cosOf
  rw [cosLoop_dot hwords, Except.ok_bind]
  dsimp only
  rw [sqrt_dot, sqrt_dot]
  exact congrArg Except.ok (if_neg (mul_ne_zero hx hy))

end WebPageQuery

end LightSearch
