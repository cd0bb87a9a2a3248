import LightSearch.Utility.PageRanking

/-!
# What the pages are sorted by

The weights in the table are divided by the norm of the whole page, and `getCos` divides by the norm
of the part that it got. So each page comes under its cosine over the query words alone (`sortKey`):
`rank_exact` has the steps of a query together.

All of this is over the reals, for pages whose norms are not zero (`Normed`).
-/

set_option autoImplicit false

namespace LightSearch

open Cxx HashMap Cosine

variable {R : Type}

/-! ## The vectors of the query and of a page -/

/-- `std::greater` over the reals. -/
noncomputable def greaterReal : Option ℝ → Option ℝ → Bool
  | some a, some b => decide (b < a)
  | _, _ => false

/-- The weights of the query before they are divided; words outside the query have none. -/
noncomputable def queryVector (size : ℕ) (invertLib : List (InvertRow R)) (q : WebPageQuery R)
    (word : Str) : ℝ :=
  if word ∈ q.queryWords then
    realWeight size (q.tmpQueryWords.count word) (selectIds invertLib word).length
  else 0

/-- The weights of a page before they are divided. -/
noncomputable def pageVector (cut : Str → List Str) (stopWords : List Str) (pageLib : List WebPage)
    (page : WebPage) (word : Str) : ℝ :=
  realWeight pageLib.length ((pageWords cut stopWords page).count word)
    (documentFrequency cut stopWords pageLib word)

variable {cut : Str → List Str} {contents : Str} {pageLib : List WebPage} {page : WebPage}
  {word : Str} {o : Unordered}

theorem rawWeight_pageVector (hpage : page ∈ pageLib) (w : Str) :
    rawWeight exactReals pageLib.length ((pageWords cut (words contents) page).count w)
        (times (buildInvertIndex exactReals o cut (some contents) pageLib).pagesCount w) =
      some (pageVector cut (words contents) pageLib page w) := by
  rw [rawWeight_exactReals (List.length_pos_of_mem hpage)]
  exact congrArg (fun n => some (realWeight pageLib.length _ n))
    (times_pagesCount o cut (words contents) pageLib w)

/-- The norm of a page is the length of its vector. -/
theorem norm_exactReals (hpage : page ∈ pageLib) :
    exactReals.sqrt (normSum exactReals (rawWeights exactReals o pageLib.length
        (buildInvertIndex exactReals o cut (some contents) pageLib).pagesCount
        (pageWords cut (words contents) page))) =
      some (length (pageWords cut (words contents) page).toFinset
        (pageVector cut (words contents) pageLib page)) := by
  -- the loop goes through each word of the page once
  have hset : (wordsOf o (tally (pageWords cut (words contents) page))).toFinset =
      (pageWords cut (words contents) page).toFinset := by
    ext w
    rw [List.mem_toFinset, List.mem_toFinset, mem_wordsOf]
  have hnodup : (wordsOf o (tally (pageWords cut (words contents) page))).Nodup := nodup_inOrder o _
  have hsum : normSum exactReals (rawWeights exactReals o pageLib.length
      (buildInvertIndex exactReals o cut (some contents) pageLib).pagesCount
      (pageWords cut (words contents) page)) =
      some (dot (pageWords cut (words contents) page).toFinset
        (pageVector cut (words contents) pageLib page)
        (pageVector cut (words contents) pageLib page)) := by
    unfold rawWeights dot
    simp only [rawWeight_pageVector hpage]
    rw [← hset, List.sum_toFinset _ hnodup]
    have hmap : ∀ ws : List Str, (ws.map fun w =>
        some (pageVector cut (words contents) pageLib page w)) =
        (ws.map (pageVector cut (words contents) pageLib page)).map some := fun ws =>
      List.map_map.symm
    rw [hmap, normSum_exactReals, List.map_map]
    rfl
  rw [hsum]
  exact if_pos (dot_self_nonneg _ _)

/-- The weight of a word on a page, over the reals. -/
theorem pageWeight_exactReals (hpage : page ∈ pageLib)
    (hnorm : length (pageWords cut (words contents) page).toFinset
      (pageVector cut (words contents) pageLib page) ≠ 0) :
    pageWeight exactReals o pageLib.length
        (buildInvertIndex exactReals o cut (some contents) pageLib).pagesCount
        (pageWords cut (words contents) page) word =
      some (pageVector cut (words contents) pageLib page word /
        length (pageWords cut (words contents) page).toFinset
          (pageVector cut (words contents) pageLib page)) := by
  unfold pageWeight
  rw [rawWeight_pageVector hpage, norm_exactReals hpage]
  exact if_neg hnorm

/-- A word has no weight on a page when it is on all pages but one. -/
theorem pageVector_ne_zero (hpage : page ∈ pageLib)
    (hword : word ∈ pageWords cut (words contents) page) :
    pageVector cut (words contents) pageLib page word ≠ 0 ↔
      documentFrequency cut (words contents) pageLib word + 1 ≠ pageLib.length :=
  not_congr (realWeight_eq_zero (List.length_pos_of_mem hpage) (List.count_pos_iff.mpr hword))

/-- A page with a weight that is not zero is weighable. -/
theorem weighable_of_length (hpage : page ∈ pageLib) {t : Finset Str}
    (hnorm : length t (pageVector cut (words contents) pageLib page) ≠ 0)
    (ht : ∀ word ∈ t, word ∈ pageWords cut (words contents) page) :
    Weighable cut (words contents) pageLib page := by
  obtain ⟨word, hword, hne⟩ := length_ne_zero.mp hnorm
  exact ⟨word, ht word hword, (pageVector_ne_zero hpage (ht word hword)).mp hne⟩

/-- The norm of a weighable page is not zero. -/
theorem length_ne_zero_iff (hpage : page ∈ pageLib) :
    length (pageWords cut (words contents) page).toFinset
        (pageVector cut (words contents) pageLib page) ≠ 0 ↔
      Weighable cut (words contents) pageLib page := by
  refine ⟨fun h => weighable_of_length hpage h fun word hword => List.mem_toFinset.mp hword, ?_⟩
  rintro ⟨word, hword, hne⟩
  exact length_ne_zero.mpr
    ⟨word, List.mem_toFinset.mpr hword, (pageVector_ne_zero hpage hword).mpr hne⟩

/-- The weight that the table has for a word and a page. -/
theorem firstWeight_page (hcut : SymbolsAlone cut) (hnumbered : Numbered pageLib)
    (hpage : page ∈ pageLib) (hword : word ∈ pageWords cut (words contents) page)
    (hquotable : AllQuotable word)
    (hnorm : length (pageWords cut (words contents) page).toFinset
      (pageVector cut (words contents) pageLib page) ≠ 0) :
    firstWeight (storedRows printReal
        (buildInvertIndex exactReals o cut (some contents) pageLib).rows) page.docId word =
      .ok (some (pageVector cut (words contents) pageLib page word /
        length (pageWords cut (words contents) page).toFinset
          (pageVector cut (words contents) pageLib page))) := by
  have hweighable := weighable_of_length hpage hnorm fun w hw => List.mem_toFinset.mp hw
  have hid := (mem_selectIds_stored weighs_exactReals hcut hnumbered hpage hquotable (o := o)).mpr
    ⟨hword, hweighable⟩
  obtain ⟨weight, hweight⟩ := selectWeights_unique (unique_storedRows hcut printReal) hid
  obtain ⟨row, hrow, rfl, hrowid⟩ := mem_selectIds.mp hid
  -- the one weight of the word and the page is that of its row
  have hmem : row.weight ∈ selectWeights (storedRows printReal
      (buildInvertIndex exactReals o cut (some contents) pageLib).rows) row.word page.docId :=
    List.mem_map_of_mem (List.mem_filter.mpr ⟨hrow, decide_eq_true ⟨rfl, hrowid⟩⟩)
  rw [hweight, List.mem_singleton] at hmem
  rw [storedRows_index hcut] at hrow
  obtain ⟨p, hp, -, heq⟩ := mem_rows.mp (List.mem_filter.mp hrow).1
  have hsame : p.1 = page := by
    apply hnumbered.eq_of_docId (mem_of_zipIdx hp) hpage
    rw [hnumbered p hp, ← hrowid, heq]
  rw [hsame] at heq
  unfold firstWeight
  rw [hweight]
  have hvalue := congrArg InvertRow.weight heq
  dsimp only at hvalue
  rw [← hmem, hvalue, pageWeight_exactReals hpage hnorm]
  rfl

/-! ## The keys of the multimap -/

/-- The pages with all words of a query. -/
def HasAll (cut : Str → List Str) (stopWords queryWords : List Str) (page : WebPage) : Prop :=
  ∀ word ∈ queryWords, word ∈ pageWords cut stopWords page

/-- No norm that a query divides by is zero: neither its own, nor that of a page with all its
words. -/
structure Normed (cut : Str → List Str) (stopWords queryWords : List Str) (pageLib : List WebPage)
    (x : Str → ℝ) : Prop where
  query : length queryWords.toFinset x ≠ 0
  pages : ∀ page ∈ pageLib, HasAll cut stopWords queryWords page →
    length queryWords.toFinset (pageVector cut stopWords pageLib page) ≠ 0

/-- The page with an id. -/
def pageAt (pageLib : List WebPage) (id : Nat) : Option WebPage :=
  pageLib.find? fun page => page.docId = id

theorem pageAt_docId (hnumbered : Numbered pageLib) (hpage : page ∈ pageLib) :
    pageAt pageLib page.docId = some page := by
  unfold pageAt
  cases hfind : pageLib.find? fun p => p.docId = page.docId with
  | none => exact absurd (decide_eq_true rfl) (List.find?_eq_none.mp hfind page hpage)
  | some p =>
    have hid : p.docId = page.docId := of_decide_eq_true (List.find?_some hfind :)
    rw [hnumbered.eq_of_docId (List.mem_of_find?_eq_some hfind) hpage hid]

/-- The number that a page is sorted by: its cosine over the query words alone. -/
noncomputable def sortKey (cut : Str → List Str) (stopWords queryWords : List Str)
    (pageLib : List WebPage) (x : Str → ℝ) (id : Nat) : ℝ :=
  match pageAt pageLib id with
  | some page => cosine queryWords.toFinset x (pageVector cut stopWords pageLib page)
  | none => 0

/-- What the table has for a word and an id. -/
noncomputable def tableWeight (cut : Str → List Str) (stopWords : List Str) (pageLib : List WebPage)
    (id : Nat) (word : Str) : Option ℝ :=
  match pageAt pageLib id with
  | some page => some (pageVector cut stopWords pageLib page word /
      length (pageWords cut stopWords page).toFinset (pageVector cut stopWords pageLib page))
  | none => none

theorem length_pageWords {queryWords : List Str} (hall : HasAll cut (words contents) queryWords page)
    (hnorm : length queryWords.toFinset (pageVector cut (words contents) pageLib page) ≠ 0) :
    0 < length (pageWords cut (words contents) page).toFinset
      (pageVector cut (words contents) pageLib page) := by
  have hpart : 0 < length queryWords.toFinset (pageVector cut (words contents) pageLib page) :=
    lt_of_le_of_ne (length_nonneg _ _) hnorm.symm
  refine hpart.trans_le (length_mono (fun word hword => ?_) _)
  exact List.mem_toFinset.mpr (hall word (List.mem_toFinset.mp hword))

theorem nodup_queryWords (segment : Str → List Str) (q : WebPageQuery R) (sentence : Str) :
    (q.cut segment sentence).queryWords.Nodup := by
  have hdistinct := Std.TreeSet.distinct_toList
    (t := Std.TreeSet.ofList ((segment sentence).filter fun elem => elem ∉ q.stopWords) compare)
  refine hdistinct.imp fun h heq => h ?_
  rw [heq]
  exact Std.ReflCmp.compare_self

/-! ## The steps of one query -/

variable {o o' : Unordered} {sentence webStop : Str} {webPageLib : List PageRow}
  {q : WebPageQuery (Option ℝ)} {x : Str → ℝ}

/-- The table of the index of a page library, over the reals. -/
noncomputable def exactTable (o : Unordered) (cut : Str → List Str) (contents : Str)
    (pageLib : List WebPage) : List (InvertRow (Option ℝ)) :=
  storedRows printReal (buildInvertIndex exactReals o cut (some contents) pageLib).rows

theorem queryWords_ne_nil {queryWords : List Str} (h : length queryWords.toFinset x ≠ 0) :
    queryWords ≠ [] := by
  obtain ⟨word, hword, -⟩ := length_ne_zero.mp h
  exact List.ne_nil_of_mem (List.mem_toFinset.mp hword)

/-- Pages with all words of a query have weights, when no norm is zero. -/
theorem Normed.weighable {queryWords : List Str}
    (hnormed : Normed cut (words contents) queryWords pageLib x) :
    ∀ page ∈ pageLib, HasAll cut (words contents) queryWords page →
      Weighable cut (words contents) pageLib page := fun page hpage hall =>
  weighable_of_length hpage (hnormed.pages page hpage hall) fun word hword =>
    hall word (List.mem_toFinset.mp hword)

/-- The ids that a query finds are those of the pages with all its words, when these have weights. -/
theorem mem_found (hcut : SymbolsAlone cut) (hnumbered : Numbered pageLib)
    {queryWords : List Str} (hquotable : ∀ word ∈ queryWords, AllQuotable word)
    (hne : queryWords ≠ []) (hweighable : ∀ page ∈ pageLib,
      HasAll cut (words contents) queryWords page → Weighable cut (words contents) pageLib page)
    (id : Nat) :
    id ∈ LightSearch.getIntersectionId o' (exactTable o cut contents pageLib) queryWords [] ↔
      ∃ page ∈ pageLib, page.docId = id ∧ HasAll cut (words contents) queryWords page := by
  have hunique : Unique (exactTable o cut contents pageLib) := unique_storedRows hcut printReal
  have hids := (intersection_exact hunique o' hne).2 id
  refine Iff.trans hids ⟨fun h => ?_, ?_⟩
  · obtain ⟨first, hfirst⟩ := List.exists_mem_of_ne_nil _ hne
    obtain ⟨row, hrow, -, hrowid⟩ := mem_selectIds.mp (h first hfirst)
    unfold exactTable at hrow
    rw [storedRows_index hcut] at hrow
    obtain ⟨p, hp, -, heq⟩ := mem_rows.mp (List.mem_filter.mp hrow).1
    have hmem := mem_of_zipIdx hp
    obtain rfl : p.1.docId = id := by rw [hnumbered p hp, ← hrowid, heq]
    refine ⟨p.1, hmem, rfl, fun word hword => ?_⟩
    exact ((mem_selectIds_stored weighs_exactReals hcut hnumbered hmem (hquotable word hword)).mp
      (h word hword)).1
  · rintro ⟨page, hpage, rfl, hall⟩ word hword
    exact (mem_selectIds_stored weighs_exactReals hcut hnumbered hpage (hquotable word hword)).mpr
      ⟨hall word hword, hweighable page hpage hall⟩

theorem rawWeight_queryVector {invertLib : List (InvertRow (Option ℝ))}
    (hsize : 0 < webPageLib.length) (hword : word ∈ q.queryWords) :
    rawWeight exactReals webPageLib.length (q.tmpQueryWords.count word)
        (selectIds invertLib word).length =
      some (queryVector webPageLib.length invertLib q word) := by
  rw [rawWeight_exactReals hsize]
  exact congrArg some (if_pos hword).symm

/-- The norm of a query is the length of its vector. -/
theorem queryNorm_exact (invertLib : List (InvertRow (Option ℝ))) (hnodup : q.queryWords.Nodup)
    (hsize : 0 < webPageLib.length) :
    exactReals.sqrt (normSum exactReals (q.queryWords.map fun elem =>
        rawWeight exactReals webPageLib.length (q.tmpQueryWords.count elem)
          (selectIds invertLib elem).length)) =
      some (length q.queryWords.toFinset (queryVector webPageLib.length invertLib q)) := by
  have hraw : (q.queryWords.map fun elem => rawWeight exactReals webPageLib.length
      (q.tmpQueryWords.count elem) (selectIds invertLib elem).length) =
      (q.queryWords.map (queryVector webPageLib.length invertLib q)).map some := by
    rw [List.map_map]
    exact List.map_congr_left fun word hword => rawWeight_queryVector hsize hword
  have hsum : ((q.queryWords.map (queryVector webPageLib.length invertLib q)).map
      fun w => w * w).sum = dot q.queryWords.toFinset (queryVector webPageLib.length invertLib q)
        (queryVector webPageLib.length invertLib q) := by
    rw [List.map_map]
    exact (List.sum_toFinset _ hnodup).symm
  rw [hraw, normSum_exactReals, hsum]
  exact if_pos (dot_self_nonneg _ _)

/-- Without a row in `webPageLib` a query has no weights. -/
theorem size_pos_of_length {invertLib : List (InvertRow (Option ℝ))}
    (hquery : length q.queryWords.toFinset (queryVector webPageLib.length invertLib q) ≠ 0) :
    0 < webPageLib.length := by
  by_contra hzero
  obtain ⟨word, -, hne⟩ := length_ne_zero.mp hquery
  apply hne
  unfold queryVector realWeight
  rw [Nat.eq_zero_of_not_pos hzero, Nat.cast_zero, zero_div, Real.logb_zero, mul_zero, ite_self]

/-- The query weights are the query vector divided by its length. -/
theorem queryWeight_exact (webPageLib : List PageRow) (invertLib : List (InvertRow (Option ℝ)))
    (hnodup : q.queryWords.Nodup)
    (hquery : length q.queryWords.toFinset (queryVector webPageLib.length invertLib q) ≠ 0) :
    let weights := q.queryWords.map fun elem => rawWeight exactReals webPageLib.length
      (q.tmpQueryWords.count elem) (selectIds invertLib elem).length
    weights.map (fun elem => exactReals.div elem (exactReals.sqrt (normSum exactReals weights))) =
      q.queryWords.map fun word => some (queryVector webPageLib.length invertLib q word /
        length q.queryWords.toFinset (queryVector webPageLib.length invertLib q)) := by
  intro weights
  have hsize := size_pos_of_length hquery
  rw [queryNorm_exact invertLib hnodup hsize, List.map_map]
  refine List.map_congr_left fun word hword => ?_
  rw [Function.comp_apply, rawWeight_queryVector hsize hword]
  exact if_neg hquery

/-- The table has a weight for each word of a page that has all words. -/
theorem firstWeight_tableWeight (hcut : SymbolsAlone cut) (hnumbered : Numbered pageLib)
    {queryWords : List Str} (hquotable : ∀ word ∈ queryWords, AllQuotable word) (hpage : page ∈ pageLib)
    (hall : HasAll cut (words contents) queryWords page)
    (hweighable : Weighable cut (words contents) pageLib page) (hword : word ∈ queryWords) :
    firstWeight (exactTable o cut contents pageLib) page.docId word =
      .ok (tableWeight cut (words contents) pageLib page.docId word) := by
  have hnorm := (length_ne_zero_iff hpage).mpr hweighable
  unfold exactTable tableWeight
  rw [firstWeight_page hcut hnumbered hpage (hall word hword) (hquotable word hword) hnorm,
    pageAt_docId hnumbered hpage]

/-- A page with all words comes under its sort key. -/
theorem cosOf_sortKey (hnumbered : Numbered pageLib) {queryWords : List Str}
    (hnodup : queryWords.Nodup) (hnormed : Normed cut (words contents) queryWords pageLib x)
    (hpage : page ∈ pageLib) (hall : HasAll cut (words contents) queryWords page) :
    WebPageQuery.cosOf exactReals
        (queryWords.map fun word => some (x word / length queryWords.toFinset x))
        (queryWords.map (tableWeight cut (words contents) pageLib page.docId)) =
      .ok (some (sortKey cut (words contents) queryWords pageLib x page.docId)) := by
  have hquery : 0 < length queryWords.toFinset x :=
    lt_of_le_of_ne (length_nonneg _ _) hnormed.query.symm
  have hpart := hnormed.pages page hpage hall
  have hwhole := length_pageWords hall hpart
  unfold sortKey tableWeight
  simp only [pageAt_docId hnumbered hpage]
  rw [WebPageQuery.cosOf_exactReals hnodup, cosine_scale _ _ _ hquery hwhole]
  · rw [length_div _ _ hquery.le, div_self hquery.ne']
    exact one_ne_zero
  · rw [length_div _ _ hwhole.le]
    exact div_ne_zero hpart hwhole.ne'

/-- **The weights of a query** whose words can all be asked for, when its own norm is not zero and the
pages with all words have weights. -/
theorem weighed_exact (o' : Unordered) (hcut : SymbolsAlone cut) (hnumbered : Numbered pageLib)
    (hq : q = (WebPageQuery.new webStop).cut cut sentence)
    (hquotable : ∀ word ∈ q.queryWords, AllQuotable word)
    (hx : x = queryVector webPageLib.length (exactTable o cut contents pageLib) q)
    (hquery : length q.queryWords.toFinset x ≠ 0)
    (hweighable : ∀ page ∈ pageLib, HasAll cut (words contents) q.queryWords page →
      Weighable cut (words contents) pageLib page)
    (hfound : ∃ page ∈ pageLib, HasAll cut (words contents) q.queryWords page) :
    ∃ q₃, (WebPageQuery.new webStop).weighed exactReals o' cut webPageLib
        (exactTable o cut contents pageLib) sentence = .ok q₃ ∧
      q₃.queryWeight =
        (q.queryWords.map fun word => some (x word / length q.queryWords.toFinset x)) ∧
      ∃ ids : List Nat, (∀ id, id ∈ ids ↔
          ∃ page ∈ pageLib, page.docId = id ∧ HasAll cut (words contents) q.queryWords page) ∧
        q₃.pageWeight = assign ∅ (fun id =>
          q.queryWords.map (tableWeight cut (words contents) pageLib id)) ids := by
  have hnodup : q.queryWords.Nodup := hq ▸ nodup_queryWords cut _ sentence
  have hstart : q.intersectionId = [] := by
    rw [hq]
    rfl
  -- the object after each step
  obtain ⟨ids, hids⟩ : ∃ ids, ids = LightSearch.getIntersectionId o'
    (exactTable o cut contents pageLib) q.queryWords [] := ⟨_, rfl⟩
  have hmem : ∀ id, id ∈ ids ↔
      ∃ page ∈ pageLib, page.docId = id ∧ HasAll cut (words contents) q.queryWords page := fun id =>
    hids ▸ mem_found hcut hnumbered hquotable (queryWords_ne_nil hquery) hweighable id
  have hidsne : ids ≠ [] := by
    obtain ⟨page, hpage, hall⟩ := hfound
    exact List.ne_nil_of_mem ((hmem page.docId).mpr ⟨page, hpage, rfl, hall⟩)
  let q₁ : WebPageQuery (Option ℝ) := { q with intersectionId := ids }
  let q₂ : WebPageQuery (Option ℝ) := { q₁ with
    queryWeight := q.queryWords.map fun word => some (x word / length q.queryWords.toFinset x) }
  let q₃ : WebPageQuery (Option ℝ) := { q₂ with
    pageWeight := assign ∅ (fun id =>
      q.queryWords.map (tableWeight cut (words contents) pageLib id)) ids }
  have hstep₁ : q.getIntersectionId o' (exactTable o cut contents pageLib) = .ok q₁ := by
    rw [WebPageQuery.getIntersectionId_quotable o' _ hquotable, hstart, ← hids]
  have hstep₂ : q₁.getQueryWordsWeight exactReals webPageLib (exactTable o cut contents pageLib) =
      .ok q₂ := by
    have hweights := queryWeight_exact webPageLib (exactTable o cut contents pageLib) hnodup
      (hx ▸ hquery)
    rw [← hx] at hweights
    have hrun : q₁.getQueryWordsWeight exactReals webPageLib (exactTable o cut contents pageLib) = _ :=
      WebPageQuery.getQueryWordsWeight_quotable webPageLib hquotable hidsne
    exact hrun.trans (congrArg (fun w => Except.ok { q₁ with queryWeight := w }) hweights)
  have hstep₃ : q₂.getPageWeight (exactTable o cut contents pageLib) = .ok q₃ := by
    apply WebPageQuery.getPageWeight_quotable (q := q₂) hquotable
    intro id hid word hword
    obtain ⟨page, hpage, rfl, hall⟩ := (hmem id).mp hid
    exact firstWeight_tableWeight hcut hnumbered hquotable hpage hall (hweighable page hpage hall)
      hword
  refine ⟨q₃, ?_, rfl, ids, hmem, rfl⟩
  unfold WebPageQuery.weighed
  rw [← hq, hstep₁, Except.ok_bind, hstep₂, Except.ok_bind]
  exact hstep₃

/-- **The multimap of a query** whose words can all be asked for: each page with all words comes under
its sort key, in the order of the loop over the map. -/
theorem rank_exact (o' : Unordered) (hcut : SymbolsAlone cut) (hnumbered : Numbered pageLib)
    (hq : q = (WebPageQuery.new webStop).cut cut sentence)
    (hquotable : ∀ word ∈ q.queryWords, AllQuotable word)
    (hx : x = queryVector webPageLib.length (exactTable o cut contents pageLib) q)
    (hnormed : Normed cut (words contents) q.queryWords pageLib x)
    (hfound : ∃ page ∈ pageLib, HasAll cut (words contents) q.queryWords page) :
    ∃ elems : List (Nat × List (Option ℝ)), (elems.map Prod.fst).Nodup ∧
      (∀ id, id ∈ elems.map Prod.fst ↔
        ∃ page ∈ pageLib, page.docId = id ∧ HasAll cut (words contents) q.queryWords page) ∧
      ∀ o'' : Unordered, ∃ q', (WebPageQuery.new webStop).rank exactReals greaterReal o' o'' cut
          webPageLib (exactTable o cut contents pageLib) sentence = .ok q' ∧
        q'.pageCos = Multimap.fill (WebPageQuery.Greater greaterReal)
          (((o''.order elems).map Prod.fst).map fun id =>
            (some (sortKey cut (words contents) q.queryWords pageLib x id), id)) := by
  have hnodup : q.queryWords.Nodup := hq ▸ nodup_queryWords cut _ sentence
  obtain ⟨q₃, hrun, hweights, ids, hmem, hpages⟩ := weighed_exact o' hcut hnumbered hq hquotable hx
    hnormed.query hnormed.weighable hfound
  -- what the map has
  have helem : ∀ (o'' : Unordered) {id ws}, (id, ws) ∈ inOrder o'' q₃.pageWeight ↔
      id ∈ ids ∧ q.queryWords.map (tableWeight cut (words contents) pageLib id) = ws := by
    intro o'' id ws
    rw [hpages]
    exact mem_inOrder_assign
  refine ⟨q₃.pageWeight.entries.map fun e => (e.1, e.2), nodup_inOrder .asIs _, fun id => ?_,
    fun o'' => ?_⟩
  · rw [← hmem, List.mem_map]
    constructor
    · rintro ⟨⟨id', ws⟩, hin, rfl⟩
      exact ((helem .asIs).mp hin).1
    · intro hid
      exact ⟨(id, _), (helem .asIs).mpr ⟨hid, rfl⟩, rfl⟩
  · have hkeys : ∀ elem ∈ inOrder o'' q₃.pageWeight,
        WebPageQuery.cosOf exactReals q₃.queryWeight elem.2 =
          .ok (some (sortKey cut (words contents) q.queryWords pageLib x elem.1)) := by
      intro elem hin
      obtain ⟨hid, hws⟩ := (helem o'').mp hin
      obtain ⟨page, hpage, hpageid, hall⟩ := (hmem elem.1).mp hid
      rw [← hws, ← hpageid, hweights]
      exact cosOf_sortKey hnumbered hnodup hnormed hpage hall
    have hstep₄ : q₃.getCos exactReals greaterReal o'' = _ := WebPageQuery.getCos_ok o''
      (fun id => some (sortKey cut (words contents) q.queryWords pageLib x id)) hkeys
    refine ⟨{ q₃ with pageCos := _ }, ?_, rfl⟩
    rw [WebPageQuery.rank_eq, hrun, Except.ok_bind]
    exact hstep₄

end LightSearch
