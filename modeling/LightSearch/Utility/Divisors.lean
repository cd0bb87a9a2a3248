import LightSearch.Utility.CosineOrder

/-!
# What the weights are divided by

Three numbers are divided by: the norm of a page when the index is built, the norm of a query, and the
product of two norms for each page that a query found. Each is a norm of weights, and a weight is zero
when the word is on all pages but one, as the logarithm is then taken of one. So none of the three is
zero exactly when each of these has a word that is not on all pages but one
(`divisors_nonzero_iff`).

Two pages with no word in common have no norm, since each word is on one page of two.
-/

set_option autoImplicit false

namespace LightSearch

open Cxx HashMap Cosine

/-- A number that can be divided by. -/
def NonZero (value : Option ℝ) : Prop := ∃ number : ℝ, number ≠ 0 ∧ value = some number

theorem nonZero_some {number : ℝ} : NonZero (some number) ↔ number ≠ 0 := by
  simp [NonZero]

/-- `sqrtW` of a page. -/
noncomputable def sqrtW (o : Unordered) (cut : Str → List Str) (contents : Str)
    (pageLib : List WebPage) (page : WebPage) : Option ℝ :=
  exactReals.sqrt (normSum exactReals (rawWeights exactReals o pageLib.length
    (buildInvertIndex exactReals o cut (some contents) pageLib).pagesCount
    (pageWords cut (words contents) page)))

/-- `sqrt(sumw2)` of a query. -/
noncomputable def sqrtSumw2 (webPageLib : List PageRow) (invertLib : List (InvertRow (Option ℝ)))
    (q : WebPageQuery (Option ℝ)) : Except Fault (Option ℝ) := do
  let weights ← q.queryWords.mapM (WebPageQuery.queryWordWeight exactReals webPageLib invertLib q)
  .ok (exactReals.sqrt (normSum exactReals weights))

/-- `x * y` of a page. -/
noncomputable def xTimesY (queryWeight pageWeight : List (Option ℝ)) : Except Fault (Option ℝ) := do
  let (_, x, y) ← WebPageQuery.cosLoop exactReals (exactReals.ofNat 0) (exactReals.ofNat 0)
    (exactReals.ofNat 0) queryWeight pageWeight
  .ok (exactReals.mul (exactReals.sqrt x) (exactReals.sqrt y))

/-- No division by zero, and nothing that is no number: in the index of a page library, and in a query
that is sent to its table. -/
structure DivisorsNonZero (o o' o'' : Unordered) (cut : Str → List Str)
    (indexStop webStop sentence : Str) (pageLib : List WebPage) (webPageLib : List PageRow) :
    Prop where
  norm : ∀ page ∈ pageLib, pageWords cut (words indexStop) page ≠ [] →
    NonZero (sqrtW o cut indexStop pageLib page)
  rows : ∀ row ∈ (buildInvertIndex exactReals o cut (some indexStop) pageLib).rows, row.weight ≠ none
  query : ∀ q, ((WebPageQuery.new webStop).cut cut sentence).getIntersectionId o'
      (exactTable o cut indexStop pageLib) = .ok q → q.intersectionId ≠ [] →
    ∃ divisor, sqrtSumw2 webPageLib (exactTable o cut indexStop pageLib) q = .ok divisor ∧
      NonZero divisor
  pages : ∀ q, (WebPageQuery.new webStop).weighed exactReals o' cut webPageLib
      (exactTable o cut indexStop pageLib) sentence = .ok q →
    ∀ elem ∈ inOrder o'' q.pageWeight,
      ∃ divisor, xTimesY q.queryWeight elem.2 = .ok divisor ∧ NonZero divisor
  keys : ∀ q, (WebPageQuery.new webStop).rank exactReals greaterReal o' o'' cut webPageLib
      (exactTable o cut indexStop pageLib) sentence = .ok q → ∀ elem ∈ q.pageCos, elem.1 ≠ none

variable {o o' o'' : Unordered} {cut : Str → List Str} {indexStop webStop sentence : Str}
  {pageLib : List WebPage} {webPageLib : List PageRow} {page : WebPage} {word : Str}

/-! ## The index -/

/-- **The norm of a page.** -/
theorem nonZero_sqrtW (hpage : page ∈ pageLib) :
    NonZero (sqrtW o cut indexStop pageLib page) ↔
      Weighable cut (words indexStop) pageLib page := by
  unfold sqrtW
  rw [norm_exactReals hpage, nonZero_some, length_ne_zero_iff hpage]

/-- The rows of a weighable page have numbers. -/
theorem weight_ne_none (hweighable : ∀ page ∈ pageLib, pageWords cut (words indexStop) page ≠ [] →
      Weighable cut (words indexStop) pageLib page)
    {row : InvertRow (Option ℝ)}
    (hrow : row ∈ (buildInvertIndex exactReals o cut (some indexStop) pageLib).rows) :
    row.weight ≠ none := by
  obtain ⟨p, hp, hword, heq⟩ := mem_rows.mp hrow
  have hpage := mem_of_zipIdx hp
  have hnorm := (length_ne_zero_iff hpage).mpr (hweighable p.1 hpage (List.ne_nil_of_mem hword))
  rw [heq]
  dsimp only
  rw [pageWeight_exactReals hpage hnorm]
  exact Option.some_ne_none _

/-! ## The query -/

/-- When all pages have weights, the table has all rows of a word. -/
theorem length_selectIds (hcut : SymbolsAlone cut)
    (hweighable : ∀ page ∈ pageLib, pageWords cut (words indexStop) page ≠ [] →
      Weighable cut (words indexStop) pageLib page) (hquotable : AllQuotable word) :
    (selectIds (exactTable o cut indexStop pageLib) word).length =
      documentFrequency cut (words indexStop) pageLib word := by
  have hstored : ∀ row ∈ (buildInvertIndex exactReals o cut (some indexStop) pageLib).rows,
      row.word = word → row.Stored printReal := by
    intro row hrow hword
    obtain ⟨weight, hweight⟩ := Option.ne_none_iff_exists'.mp (weight_ne_none hweighable hrow)
    refine ⟨hword ▸ hquotable, ?_⟩
    rw [hweight]
    exact numeral_some weight
  have hsame : selectIds (exactTable o cut indexStop pageLib) word =
      selectIds (buildInvertIndex exactReals o cut (some indexStop) pageLib).rows word := by
    unfold exactTable selectIds
    rw [storedRows_index hcut, List.filter_filter]
    congr 1
    refine List.filter_congr fun row hrow => ?_
    by_cases hword : row.word = word
    · simp [hword, hstored row hrow hword]
    · simp [hword]
  rw [hsame, selectIds_rows, length_postings]
  exact times_pagesCount o cut (words indexStop) pageLib word

variable {invertLib : List (InvertRow (Option ℝ))} {q : WebPageQuery (Option ℝ)}

/-- A query word has no weight when the table has all pages but one for it. -/
theorem queryVector_ne_zero (hword : word ∈ q.queryWords) (hcount : word ∈ q.tmpQueryWords) :
    queryVector webPageLib.length invertLib q word ≠ 0 ↔
      0 < webPageLib.length ∧ (selectIds invertLib word).length + 1 ≠ webPageLib.length := by
  unfold queryVector
  rw [if_pos hword]
  rcases Nat.eq_zero_or_pos webPageLib.length with hzero | hsize
  · simp [realWeight, hzero]
  · rw [ne_eq, realWeight_eq_zero hsize (List.count_pos_iff.mpr hcount)]
    exact (and_iff_right hsize).symm

/-- Without pages a weight is no number. -/
theorem rawWeight_no_pages (count pages : ℕ) : rawWeight exactReals 0 count pages = none := by
  have hdenominator : (pages : ℝ) + 1 ≠ 0 := Nat.cast_add_one_ne_zero pages
  simp [rawWeight, exactReals, hdenominator]

/-- Weights that are no numbers have no norm. -/
theorem normSum_none {weights : List (Option ℝ)} (hne : weights ≠ []) (h : ∀ w ∈ weights, w = none) :
    normSum exactReals weights = none := by
  have hloop : ∀ ws : List (Option ℝ),
      ws.foldl (fun sum w => exactReals.add sum (exactReals.mul w w)) none = none := by
    intro ws
    induction ws with
    | nil => rfl
    | cons w ws ih => exact ih
  cases weights with
  | nil => exact absurd rfl hne
  | cons w weights =>
    rw [normSum, List.foldl_cons, h w List.mem_cons_self]
    exact hloop weights

/-- **The norm of a query.** -/
theorem nonZero_sqrtSumw2 (hnodup : q.queryWords.Nodup)
    (hquotable : ∀ word ∈ q.queryWords, AllQuotable word) :
    (∃ divisor, sqrtSumw2 webPageLib invertLib q = .ok divisor ∧ NonZero divisor) ↔
      length q.queryWords.toFinset (queryVector webPageLib.length invertLib q) ≠ 0 := by
  unfold sqrtSumw2
  rw [WebPageQuery.mapM_queryWordWeight webPageLib hquotable, Except.ok_bind]
  simp only [Except.ok.injEq, exists_eq_left']
  rcases Nat.eq_zero_or_pos webPageLib.length with hzero | hsize
  · refine iff_of_false ?_ fun hquery => ?_
    · cases hwords : q.queryWords with
      | nil =>
        have hnil : exactReals.sqrt (normSum exactReals []) = some 0 := by
          simp [normSum, exactReals]
        rw [List.map_nil, hnil, nonZero_some]
        exact fun hne => hne rfl
      | cons word queryWords =>
        rw [hzero, normSum_none (by simp) (by simp [rawWeight_no_pages])]
        rintro ⟨number, -, hnumber⟩
        cases hnumber
    · exact absurd (size_pos_of_length hquery) (by omega)
  · rw [queryNorm_exact invertLib hnodup hsize, nonZero_some]

/-! ## The pages that are found -/

/-- The product of two norms. -/
theorem xTimesY_exact {queryWords : List Str} (hnodup : queryWords.Nodup) (x y : Str → ℝ) :
    xTimesY (queryWords.map fun word => some (x word)) (queryWords.map fun word => some (y word)) =
      .ok (some (length queryWords.toFinset x * length queryWords.toFinset y)) := by
  unfold xTimesY
  rw [WebPageQuery.cosLoop_dot hnodup, Except.ok_bind]
  dsimp only
  rw [WebPageQuery.sqrt_dot, WebPageQuery.sqrt_dot]
  rfl

/-- **The product of a page**: the norm of the query is one, and that of the page is zero only when all
query words are on all pages but one. -/
theorem nonZero_xTimesY {queryWords : List Str} (hnodup : queryWords.Nodup) {x : Str → ℝ}
    (hquery : length queryWords.toFinset x ≠ 0) (hpage : page ∈ pageLib)
    (hnumbered : Numbered pageLib) (hall : HasAll cut (words indexStop) queryWords page)
    (hweighable : Weighable cut (words indexStop) pageLib page) :
    (∃ divisor, xTimesY (queryWords.map fun word => some (x word / length queryWords.toFinset x))
        (queryWords.map (tableWeight cut (words indexStop) pageLib page.docId)) = .ok divisor ∧
        NonZero divisor) ↔
      ∃ word ∈ queryWords,
        documentFrequency cut (words indexStop) pageLib word + 1 ≠ pageLib.length := by
  have hnorm := (length_ne_zero_iff hpage).mpr hweighable
  have hone : length queryWords.toFinset (fun word => x word / length queryWords.toFinset x) = 1 := by
    rw [length_div _ _ (length_nonneg _ _), div_self hquery]
  unfold tableWeight
  simp only [pageAt_docId hnumbered hpage]
  rw [xTimesY_exact hnodup, hone, one_mul, length_div _ _ (length_nonneg _ _)]
  simp only [Except.ok.injEq, exists_eq_left', nonZero_some]
  rw [div_ne_zero_iff, and_iff_left hnorm, length_ne_zero]
  simp only [List.mem_toFinset]
  exact exists_congr fun word => and_congr_right fun hword => pageVector_ne_zero hpage (hall word hword)

/-! ## Index and query together -/

/-- The words of a query are among its tokens. -/
theorem mem_tmpQueryWords (hq : q = (WebPageQuery.new webStop).cut cut sentence)
    (hword : word ∈ q.queryWords) : word ∈ q.tmpQueryWords := by
  rw [hq] at hword ⊢
  obtain ⟨htoken, hkept⟩ := WebPageQuery.mem_queryWords.mp hword
  exact List.mem_append_right _ (List.mem_filter.mpr ⟨htoken, decide_eq_true hkept⟩)

/-- When all pages have weights, the norm of a query is decided by the pages of its words. -/
theorem length_query_ne_zero_iff (hcut : SymbolsAlone cut)
    (hq : q = (WebPageQuery.new webStop).cut cut sentence)
    (hquotable : ∀ word ∈ q.queryWords, AllQuotable word)
    (hweighable : ∀ page ∈ pageLib, pageWords cut (words indexStop) page ≠ [] →
      Weighable cut (words indexStop) pageLib page) :
    length q.queryWords.toFinset
        (queryVector webPageLib.length (exactTable o cut indexStop pageLib) q) ≠ 0 ↔
      0 < webPageLib.length ∧ ∃ word ∈ q.queryWords,
        documentFrequency cut (words indexStop) pageLib word + 1 ≠ webPageLib.length := by
  rw [length_ne_zero, ← exists_and_left]
  refine exists_congr fun word => ?_
  rw [List.mem_toFinset, and_left_comm]
  refine and_congr_right fun hword => ?_
  rw [queryVector_ne_zero hword (mem_tmpQueryWords hq hword),
    length_selectIds hcut hweighable (hquotable word hword)]

/-- A query that finds pages has words that can be asked for, and a page has all of them. -/
theorem of_found (hcut : SymbolsAlone cut) (hnumbered : Numbered pageLib)
    (hq : q = (WebPageQuery.new webStop).cut cut sentence)
    (hweighable : ∀ page ∈ pageLib, pageWords cut (words indexStop) page ≠ [] →
      Weighable cut (words indexStop) pageLib page) {q₁ : WebPageQuery (Option ℝ)}
    (hstep : q.getIntersectionId o' (exactTable o cut indexStop pageLib) = .ok q₁)
    (hfound : q₁.intersectionId ≠ []) :
    (∀ word ∈ q.queryWords, AllQuotable word) ∧ q.queryWords ≠ [] ∧
      (∃ page ∈ pageLib, HasAll cut (words indexStop) q.queryWords page) ∧
      q₁ = { q with intersectionId := q₁.intersectionId } := by
  have hquotable : ∀ word ∈ q.queryWords, AllQuotable word := by
    rw [hq] at hstep ⊢
    exact WebPageQuery.quotable_of_getIntersectionId_ok hcut hstep
  have hstart : q.intersectionId = [] := by
    rw [hq]
    rfl
  rw [WebPageQuery.getIntersectionId_quotable o' _ hquotable, hstart] at hstep
  obtain rfl := Except.ok.inj hstep
  obtain ⟨id, hid⟩ := List.exists_mem_of_ne_nil _ hfound
  have hne : q.queryWords ≠ [] := by
    intro hnil
    have hmany := mem_getIntersectionId.mp hid
    rw [hnil] at hmany
    exact absurd hmany.1 List.not_mem_nil
  have hsome : ∀ page ∈ pageLib, HasAll cut (words indexStop) q.queryWords page →
      Weighable cut (words indexStop) pageLib page := by
    intro page hpage hall
    obtain ⟨word, hword⟩ := List.exists_mem_of_ne_nil _ hne
    exact hweighable page hpage (List.ne_nil_of_mem (hall word hword))
  obtain ⟨page, hpage, -, hall⟩ := (mem_found hcut hnumbered hquotable hne hsome id).mp hid
  exact ⟨hquotable, hne, ⟨page, hpage, hall⟩, rfl⟩

/-- A query that finds no page scores none. -/
theorem pageWeight_of_none_found {q₁ q₃ : WebPageQuery (Option ℝ)}
    (hstep : ((WebPageQuery.new webStop).cut cut sentence).getIntersectionId o' invertLib = .ok q₁)
    (hnone : q₁.intersectionId = [])
    (hrun : (WebPageQuery.new webStop).weighed exactReals o' cut webPageLib invertLib sentence =
      .ok q₃) : q₃.pageWeight = ∅ := by
  unfold WebPageQuery.weighed at hrun
  rw [hstep, Except.ok_bind] at hrun
  have hsame : q₁.getQueryWordsWeight exactReals webPageLib invertLib = .ok q₁ :=
    if_pos (List.length_eq_zero_iff.mpr hnone)
  rw [hsame, Except.ok_bind, WebPageQuery.getPageWeight, hnone, Run.run_nil, Except.ok_bind] at hrun
  obtain rfl := Except.ok.inj hrun
  rfl

/-- A query that finds no page lists none. -/
theorem pageCos_of_none_found {q₁ q' : WebPageQuery (Option ℝ)}
    (hstep : ((WebPageQuery.new webStop).cut cut sentence).getIntersectionId o' invertLib = .ok q₁)
    (hnone : q₁.intersectionId = [])
    (hrun : (WebPageQuery.new webStop).rank exactReals greaterReal o' o'' cut webPageLib invertLib
      sentence = .ok q') : q'.pageCos = [] := by
  rw [WebPageQuery.rank_eq] at hrun
  obtain ⟨q₃, hrun₃, hcos⟩ := Except.bind_eq_ok.mp hrun
  have helems : inOrder o'' q₃.pageWeight = [] := by
    rw [pageWeight_of_none_found hstep hnone hrun₃, List.eq_nil_iff_forall_not_mem]
    intro elem helem
    cases mem_inOrder.mp helem
  rw [WebPageQuery.getCos, helems, List.mapM_nil] at hcos
  obtain rfl := Except.ok.inj hcos
  rfl

/-- What the divisors need of the index. -/
def PagesWeighable (cut : Str → List Str) (stopWords : List Str) (pageLib : List WebPage) : Prop :=
  ∀ page ∈ pageLib, ∀ word ∈ pageWords cut stopWords page, ∃ other ∈ pageWords cut stopWords page,
    documentFrequency cut stopWords pageLib other + 1 ≠ pageLib.length

/-- What they need of a query that finds a page with all its words. -/
def QueryWeighable (cut : Str → List Str) (stopWords : List Str) (pageLib : List WebPage)
    (webPageLib : List PageRow) (queryWords : List Str) : Prop :=
  0 < webPageLib.length ∧
    (∃ word ∈ queryWords, documentFrequency cut stopWords pageLib word + 1 ≠ webPageLib.length) ∧
    ∃ word ∈ queryWords, documentFrequency cut stopWords pageLib word + 1 ≠ pageLib.length

theorem PagesWeighable.weighable (h : PagesWeighable cut (words indexStop) pageLib) :
    ∀ page ∈ pageLib, pageWords cut (words indexStop) page ≠ [] →
      Weighable cut (words indexStop) pageLib page := by
  intro page hpage hne
  obtain ⟨word, hword⟩ := List.exists_mem_of_ne_nil _ hne
  exact h page hpage word hword

/-- The norms of a query that finds a page are not zero. -/
theorem normed_of_weighable (hcut : SymbolsAlone cut)
    (hq : q = (WebPageQuery.new webStop).cut cut sentence)
    (hquotable : ∀ word ∈ q.queryWords, AllQuotable word)
    (hpages : PagesWeighable cut (words indexStop) pageLib)
    (hquery : QueryWeighable cut (words indexStop) pageLib webPageLib q.queryWords) :
    Normed cut (words indexStop) q.queryWords pageLib
      (queryVector webPageLib.length (exactTable o cut indexStop pageLib) q) := by
  refine ⟨(length_query_ne_zero_iff hcut hq hquotable hpages.weighable).mpr ⟨hquery.1, hquery.2.1⟩,
    fun page hpage hall => ?_⟩
  obtain ⟨word, hword, hne⟩ := hquery.2.2
  exact length_ne_zero.mpr ⟨word, List.mem_toFinset.mpr hword,
    (pageVector_ne_zero hpage (hall word hword)).mpr hne⟩

/-- **Enough for the divisors.** -/
theorem divisorsNonZero_of_weighable (hcut : SymbolsAlone cut) (hnumbered : Numbered pageLib)
    (hq : q = (WebPageQuery.new webStop).cut cut sentence)
    (hpages : PagesWeighable cut (words indexStop) pageLib)
    (hquery : (∀ word ∈ q.queryWords, AllQuotable word) → q.queryWords ≠ [] →
      (∃ page ∈ pageLib, HasAll cut (words indexStop) q.queryWords page) →
      QueryWeighable cut (words indexStop) pageLib webPageLib q.queryWords) :
    DivisorsNonZero o o' o'' cut indexStop webStop sentence pageLib webPageLib := by
  have hnodup : q.queryWords.Nodup := hq ▸ nodup_queryWords cut _ sentence
  -- a query that finds no page has no page to divide for
  have hcases : ∀ q₁, q.getIntersectionId o' (exactTable o cut indexStop pageLib) = .ok q₁ →
      q₁.intersectionId = [] ∨ ((∀ word ∈ q.queryWords, AllQuotable word) ∧
        (∃ page ∈ pageLib, HasAll cut (words indexStop) q.queryWords page) ∧
        Normed cut (words indexStop) q.queryWords pageLib
          (queryVector webPageLib.length (exactTable o cut indexStop pageLib) q)) := by
    intro q₁ hstep
    by_cases hnone : q₁.intersectionId = []
    · exact Or.inl hnone
    · obtain ⟨hquotable, hne, hfound, -⟩ :=
        of_found hcut hnumbered hq hpages.weighable hstep hnone
      exact Or.inr ⟨hquotable, hfound,
        normed_of_weighable hcut hq hquotable hpages (hquery hquotable hne hfound)⟩
  refine ⟨fun page hpage hne => (nonZero_sqrtW hpage).mpr (hpages.weighable page hpage hne),
    fun row hrow => weight_ne_none hpages.weighable hrow, fun q₁ hstep hfound => ?_,
    fun q₃ hrun elem helem => ?_, fun q' hrun elem helem => ?_⟩
  · rw [← hq] at hstep
    obtain ⟨hquotable, -, hnormed⟩ := (hcases q₁ hstep).resolve_left hfound
    obtain ⟨-, -, -, hsame⟩ := of_found hcut hnumbered hq hpages.weighable hstep hfound
    rw [hsame]
    exact (nonZero_sqrtSumw2 (q := { q with intersectionId := q₁.intersectionId }) hnodup
      hquotable).mpr hnormed.query
  · obtain ⟨q₁, hstep, -⟩ := Except.bind_eq_ok.mp hrun
    rcases hcases q₁ (hq ▸ hstep) with hnone | ⟨hquotable, hfound, hnormed⟩
    · rw [pageWeight_of_none_found hstep hnone hrun] at helem
      cases mem_inOrder.mp helem
    · obtain ⟨q₃', hrun', hweights, ids, hmem, hpageWeight⟩ := weighed_exact o' hcut hnumbered hq
        hquotable rfl hnormed.query hnormed.weighable hfound
      obtain rfl := Except.ok.inj (hrun'.symm.trans hrun)
      rw [hpageWeight] at helem
      obtain ⟨hid, hws⟩ := mem_inOrder_assign.mp helem
      obtain ⟨page, hpage, hpageid, hall⟩ := (hmem elem.1).mp hid
      rw [← hws, ← hpageid, hweights]
      refine (nonZero_xTimesY hnodup hnormed.query hpage hnumbered hall
        (hnormed.weighable page hpage hall)).mpr ?_
      exact (hquery hquotable (queryWords_ne_nil hnormed.query) hfound).2.2
  · obtain ⟨q₁, hstep, -⟩ := Except.bind_eq_ok.mp hrun
    rcases hcases q₁ (hq ▸ hstep) with hnone | ⟨hquotable, hfound, hnormed⟩
    · rw [pageCos_of_none_found hstep hnone hrun] at helem
      exact absurd helem List.not_mem_nil
    · obtain ⟨elems, -, -, hrank⟩ := rank_exact o' hcut hnumbered hq hquotable rfl hnormed hfound
      obtain ⟨q'', hrun', hcos⟩ := hrank o''
      obtain rfl := Except.ok.inj (hrun'.symm.trans hrun)
      rw [hcos, (Multimap.fill_perm _ _).mem_iff, List.mem_map] at helem
      obtain ⟨id, -, rfl⟩ := helem
      exact Option.some_ne_none _

/-- **No division by zero.** In the index of a page library and in a query to its table no divisor is
zero exactly when each page with a word has one that is not on all pages but one, and so has a query
whose words can be asked for and are all on some page; for the norm of the query the pages are those
that `webPageLib` has. -/
theorem divisors_nonzero_iff (hcut : SymbolsAlone cut) (o o' o'' : Unordered)
    (indexStop webStop sentence : Str) (pages : List WebPage) (webPageLib : List PageRow) :
    let pageLib := (createXml pages).1
    let q : WebPageQuery (Option ℝ) := (WebPageQuery.new webStop).cut cut sentence
    DivisorsNonZero o o' o'' cut indexStop webStop sentence pageLib webPageLib ↔
      PagesWeighable cut (words indexStop) pageLib ∧
        ((∀ word ∈ q.queryWords, AllQuotable word) → q.queryWords ≠ [] →
          (∃ page ∈ pageLib, HasAll cut (words indexStop) q.queryWords page) →
          QueryWeighable cut (words indexStop) pageLib webPageLib q.queryWords) := by
  intro pageLib q
  have hnumbered : Numbered pageLib := numbered_createXml pages
  have hq : q = (WebPageQuery.new webStop).cut cut sentence := rfl
  have hnodup : q.queryWords.Nodup := nodup_queryWords cut _ sentence
  refine ⟨fun h => ?_, fun h => divisorsNonZero_of_weighable hcut hnumbered hq h.1 h.2⟩
  have hpages : PagesWeighable cut (words indexStop) pageLib := fun page hpage word hword =>
    (nonZero_sqrtW hpage).mp (h.norm page hpage (List.ne_nil_of_mem hword))
  refine ⟨hpages, fun hquotable hne hfound => ?_⟩
  have hsome : ∀ page ∈ pageLib, HasAll cut (words indexStop) q.queryWords page →
      Weighable cut (words indexStop) pageLib page := by
    intro page hpage hall
    obtain ⟨word, hword⟩ := List.exists_mem_of_ne_nil _ hne
    exact hpages.weighable page hpage (List.ne_nil_of_mem (hall word hword))
  obtain ⟨page, hpage, hall⟩ := hfound
  have hid : page.docId ∈ LightSearch.getIntersectionId o' (exactTable o cut indexStop pageLib)
      q.queryWords [] :=
    (mem_found hcut hnumbered hquotable hne hsome page.docId).mpr ⟨page, hpage, rfl, hall⟩
  -- the query comes to its norm
  have hstep := WebPageQuery.getIntersectionId_quotable o' (exactTable o cut indexStop pageLib)
    hquotable
  have hdivisor := h.query _ hstep (List.ne_nil_of_mem hid)
  have hquery := (nonZero_sqrtSumw2 hnodup hquotable).mp hdivisor
  obtain ⟨hsize, hword⟩ := (length_query_ne_zero_iff hcut hq hquotable hpages.weighable).mp hquery
  -- and then to the page
  obtain ⟨q₃, hrun, hweights, ids, hmem, hpageWeight⟩ := weighed_exact o' hcut hnumbered hq
    hquotable rfl hquery hsome ⟨page, hpage, hall⟩
  have helem : (page.docId, q.queryWords.map (tableWeight cut (words indexStop) pageLib page.docId)) ∈
      inOrder o'' q₃.pageWeight := by
    rw [hpageWeight]
    exact mem_inOrder_assign.mpr ⟨(hmem page.docId).mpr ⟨page, hpage, rfl, hall⟩, rfl⟩
  have hproduct := h.pages q₃ hrun _ helem
  rw [hweights] at hproduct
  exact ⟨hsize, hword, (nonZero_xTimesY hnodup hquery hpage hnumbered hall
    (hsome page hpage hall)).mp hproduct⟩

/-- Three pages without a word in common. -/
def threePages : List WebPage :=
  [⟨0, lit "a", lit "http://a", lit "国"⟩, ⟨0, lit "b", lit "http://b", lit "文"⟩,
    ⟨0, lit "c", lit "http://c", lit "字"⟩]

/-- Each of their words is on one page of three. -/
theorem divisors_nonzero_three :
    DivisorsNonZero .asIs .asIs .asIs runes [] [] (lit "国") (createXml threePages).1
      (createXml threePages).2 := by
  refine (divisors_nonzero_iff runes_symbolsAlone .asIs .asIs .asIs [] [] (lit "国") threePages
    (createXml threePages).2).mpr ⟨?_, fun _ _ _ => ?_⟩
  · unfold PagesWeighable
    decide
  · unfold QueryWeighable
    decide

/-- Without the third page each word is on all pages but one, and the first page has no norm. -/
theorem not_divisors_nonzero_two :
    ¬ DivisorsNonZero .asIs .asIs .asIs runes [] [] (lit "国") (createXml (threePages.take 2)).1
      (createXml (threePages.take 2)).2 := by
  intro h
  have hpage : (⟨1, lit "a", lit "http://a", lit "国"⟩ : WebPage) ∈
      (createXml (threePages.take 2)).1 := List.mem_cons_self
  obtain ⟨word, hword, hne⟩ := (nonZero_sqrtW hpage).mp (h.norm _ hpage (by decide))
  revert word
  decide

end LightSearch
