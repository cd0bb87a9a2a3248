import LightSearch.Utility.CosineOrder

/-!
# Which page comes first

The key of a page is the cosine over the query words, and that is the cosine of the query and the whole
page divided by the share of the page that the query words have (`sortKey_eq`). A page comes before
another, in whatever order the maps are gone through, exactly when this quotient is greater
(`lists_before_iff`). With a single query word it is one for every page, and the cosines do not matter.
-/

set_option autoImplicit false

namespace LightSearch

open Cxx HashMap Cosine

variable {cut : Str → List Str} {contents : Str} {pageLib : List WebPage} {page : WebPage}
  {o o' : Unordered} {sentence webStop : Str} {webPageLib : List PageRow}
  {q : WebPageQuery (Option ℝ)} {x : Str → ℝ}

/-- Of two ids in the map, the one with the greater key comes first, and with equal keys the one that
the loop meets first. -/
theorem before_iff {ids : List Nat} (hids : ids.Nodup) (key : Nat → ℝ) {a b : Nat} (ha : a ∈ ids)
    (hb : b ∈ ids) (hne : a ≠ b) :
    [a, b].Sublist ((Multimap.fill (WebPageQuery.Greater greaterReal)
        (ids.map fun id => (some (key id), id))).map Prod.snd) ↔
      key b < key a ∨ key b = key a ∧ [a, b].Sublist ids := by
  have hpair : ∀ {l : List Nat}, [a, b].Sublist l ↔
      [(some (key a), a), (some (key b), b)].Sublist (l.map fun id => (some (key id), id)) := by
    intro l
    constructor
    · exact fun h => h.map fun id => (some (key id), id)
    · intro h
      have hback := h.map Prod.snd
      rwa [List.map_map, List.map_id''] at hback
      exact fun _ => rfl
  have hnodup : (ids.map fun id => ((some (key id), id) : Option ℝ × Nat)).Nodup :=
    hids.map fun _ _ h => (Prod.mk.inj h).2
  have hcomp : ∀ e ∈ ids.map fun id => ((some (key id), id) : Option ℝ × Nat),
      ∀ e' ∈ ids.map fun id => ((some (key id), id) : Option ℝ × Nat),
      WebPageQuery.Greater greaterReal e e' ↔ e'.1.getD 0 < e.1.getD 0 := by
    intro e he e' he'
    obtain ⟨id, -, rfl⟩ := List.mem_map.mp he
    obtain ⟨id', -, rfl⟩ := List.mem_map.mp he'
    exact decide_eq_true_iff
  have hiff := Multimap.pair_fill_iff hnodup hcomp
    (List.mem_map_of_mem (f := fun id => ((some (key id), id) : Option ℝ × Nat)) ha)
    (List.mem_map_of_mem (f := fun id => ((some (key id), id) : Option ℝ × Nat)) hb)
    (fun h => hne (Prod.mk.inj h).2)
  rw [← hpair] at hiff
  refine Iff.trans ⟨fun h => ?_, fun h => h.map Prod.snd⟩ hiff
  -- an element of the multimap is known by its id
  obtain ⟨l, hl, hmap⟩ := List.sublist_map_iff.mp h
  have helem : ∀ e ∈ l, e = (some (key e.2), e.2) := by
    intro e he
    have hfill := (Multimap.fill_perm _ _).mem_iff.mp (hl.subset he)
    obtain ⟨id, -, rfl⟩ := List.mem_map.mp hfill
    rfl
  have hlist : l = l.map fun e => (some (key e.2), e.2) := by
    conv => lhs; rw [← List.map_id l]
    exact List.map_congr_left helem
  have hids' : (l.map Prod.snd).map (fun id => ((some (key id), id) : Option ℝ × Nat)) = l := by
    rw [List.map_map]
    exact hlist.symm
  rw [← hmap, List.map_cons, List.map_cons, List.map_nil] at hids'
  rw [hids']
  exact hl

theorem pair_filter {l : List Nat} {p : Nat → Bool} {a b : Nat} :
    [a, b].Sublist (l.filter p) ↔ p a = true ∧ p b = true ∧ [a, b].Sublist l := by
  constructor
  · intro h
    have hall : ∀ c ∈ [a, b], p c = true := fun c hc => (List.mem_filter.mp (h.subset hc)).2
    exact ⟨hall a List.mem_cons_self, hall b (List.mem_cons_of_mem _ List.mem_cons_self),
      h.trans List.filter_sublist⟩
  · rintro ⟨ha, hb, h⟩
    have hfilter := h.filter p
    rwa [List.filter_cons_of_pos ha, List.filter_cons_of_pos hb, List.filter_nil] at hfilter

/-- When a query with this multimap lists a page before another: both have rows, and one comes before
the other in the multimap. -/
theorem listed_iff {ranked : Except Fault (WebPageQuery (Option ℝ))} {q' : WebPageQuery (Option ℝ)}
    (hrun : ranked = .ok q') {ids : List Nat} (hids : ids.Nodup) {key : Nat → ℝ}
    (hcos : q'.pageCos = Multimap.fill (WebPageQuery.Greater greaterReal)
      (ids.map fun id => (some (key id), id))) {a b : Nat} (ha : a ∈ ids) (hb : b ∈ ids)
    (hne : a ≠ b) :
    (∃ q', ranked = .ok q' ∧ [a, b].Sublist (q'.resultIds webPageLib)) ↔
      (∃ row ∈ webPageLib, row.id = a) ∧ (∃ row ∈ webPageLib, row.id = b) ∧
        (key b < key a ∨ key b = key a ∧ [a, b].Sublist ids) := by
  have hbefore := before_iff hids key ha hb hne
  rw [← hcos] at hbefore
  rw [← hbefore]
  constructor
  · rintro ⟨q'', hrun', hsub⟩
    obtain rfl := Except.ok.inj (hrun.symm.trans hrun')
    obtain ⟨hrow, hrow', hsub⟩ := pair_filter.mp hsub
    exact ⟨of_decide_eq_true hrow, of_decide_eq_true hrow', hsub⟩
  · rintro ⟨hrow, hrow', hsub⟩
    exact ⟨q', hrun, pair_filter.mpr ⟨decide_eq_true hrow, decide_eq_true hrow', hsub⟩⟩

/-- Whether a query lists one id before another in every order of its loop over the pages. -/
def ListsBefore (o o' : Unordered) (cut : Str → List Str) (contents webStop sentence : Str)
    (pageLib : List WebPage) (webPageLib : List PageRow) (id id' : Nat) : Prop :=
  ∀ o'' : Unordered, ∃ q', (WebPageQuery.new webStop).rank exactReals greaterReal o' o'' cut
      webPageLib (exactTable o cut contents pageLib) sentence = .ok q' ∧
    [id, id'].Sublist (q'.resultIds webPageLib)

/-- **When a page is listed before another**: both have rows, and its sort key is greater. -/
theorem listsBefore_iff (hcut : SymbolsAlone cut) (hnumbered : Numbered pageLib)
    (hq : q = (WebPageQuery.new webStop).cut cut sentence)
    (hx : x = queryVector webPageLib.length (exactTable o cut contents pageLib) q)
    (hnormed : Normed cut (words contents) q.queryWords pageLib x) {page' : WebPage}
    (hpage : page ∈ pageLib) (hall : HasAll cut (words contents) q.queryWords page)
    (hpage' : page' ∈ pageLib) (hall' : HasAll cut (words contents) q.queryWords page')
    (hne : page.docId ≠ page'.docId) :
    ListsBefore o o' cut contents webStop sentence pageLib webPageLib page.docId page'.docId ↔
      (∀ word ∈ q.queryWords, AllQuotable word) ∧
      (∃ row ∈ webPageLib, row.id = page.docId) ∧ (∃ row ∈ webPageLib, row.id = page'.docId) ∧
      sortKey cut (words contents) q.queryWords pageLib x page'.docId <
        sortKey cut (words contents) q.queryWords pageLib x page.docId := by
  by_cases hquotable : ∀ word ∈ q.queryWords, AllQuotable word
  · obtain ⟨elems, hnodup, hmem, hrank⟩ := rank_exact o' hcut hnumbered hq hquotable hx hnormed
      ⟨page, hpage, hall⟩
    -- the order of a loop only permutes the ids
    have horder : ∀ o'' : Unordered, ((o''.order elems).map Prod.fst).Perm (elems.map Prod.fst) :=
      fun o'' => (o''.perm elems).map Prod.fst
    have hlists : ∀ o'' : Unordered, (∃ q', (WebPageQuery.new webStop).rank exactReals greaterReal
          o' o'' cut webPageLib (exactTable o cut contents pageLib) sentence = .ok q' ∧
          [page.docId, page'.docId].Sublist (q'.resultIds webPageLib)) ↔
        (∃ row ∈ webPageLib, row.id = page.docId) ∧ (∃ row ∈ webPageLib, row.id = page'.docId) ∧
        (sortKey cut (words contents) q.queryWords pageLib x page'.docId <
            sortKey cut (words contents) q.queryWords pageLib x page.docId ∨
          sortKey cut (words contents) q.queryWords pageLib x page'.docId =
            sortKey cut (words contents) q.queryWords pageLib x page.docId ∧
          [page.docId, page'.docId].Sublist ((o''.order elems).map Prod.fst)) := by
      intro o''
      obtain ⟨q', hrun, hcos⟩ := hrank o''
      exact listed_iff hrun ((horder o'').nodup_iff.mpr hnodup) hcos
        ((horder o'').mem_iff.mpr ((hmem _).mpr ⟨page, hpage, rfl, hall⟩))
        ((horder o'').mem_iff.mpr ((hmem _).mpr ⟨page', hpage', rfl, hall'⟩)) hne
    unfold ListsBefore
    simp only [hlists]
    constructor
    · intro h
      obtain ⟨hrow, hrow', -⟩ := h .asIs
      refine ⟨hquotable, hrow, hrow', ?_⟩
      -- with equal keys one of the two directions has the other page first
      by_contra hlt
      have hsub := fun o'' => (((h o'').2.2).resolve_left hlt).2
      have hforward := hsub .asIs
      have hbackward := hsub .backwards
      rw [show Unordered.backwards.order elems = elems.reverse from rfl, List.map_reverse] at hbackward
      have hreverse := List.reverse_sublist.mpr hbackward
      rw [List.reverse_reverse] at hreverse
      exact Multimap.pair_asymm hnodup hforward hreverse
    · rintro ⟨-, hrow, hrow', hlt⟩ o''
      exact ⟨hrow, hrow', .inl hlt⟩
  · refine ⟨fun h => absurd ?_ hquotable, fun h => absurd h.1 hquotable⟩
    obtain ⟨q', hrun, -⟩ := h .asIs
    exact (WebPageQuery.of_rank_ok hcut hq hrun).1

/-- The cosine of the query and a page, over all words of the page. -/
noncomputable def fullCosine (cut : Str → List Str) (stopWords : List Str) (pageLib : List WebPage)
    (x : Str → ℝ) (page : WebPage) : ℝ :=
  cosine (pageWords cut stopWords page).toFinset x (pageVector cut stopWords pageLib page)

/-- How much of the length of a page its query words have. -/
noncomputable def queryShare (cut : Str → List Str) (stopWords queryWords : List Str)
    (pageLib : List WebPage) (page : WebPage) : ℝ :=
  share queryWords.toFinset (pageWords cut stopWords page).toFinset
    (pageVector cut stopWords pageLib page)

/-- A page is sorted by its cosine without the share of the query words. -/
theorem sortKey_eq (hnumbered : Numbered pageLib) (hpage : page ∈ pageLib)
    {invertLib : List (InvertRow (Option ℝ))}
    (hx : x = queryVector webPageLib.length invertLib q)
    (hnormed : Normed cut (words contents) q.queryWords pageLib x)
    (hall : HasAll cut (words contents) q.queryWords page) :
    fullCosine cut (words contents) pageLib x page /
        queryShare cut (words contents) q.queryWords pageLib page =
      sortKey cut (words contents) q.queryWords pageLib x page.docId := by
  unfold sortKey
  rw [pageAt_docId hnumbered hpage]
  apply cosine_div_share
  · intro word hword
    exact List.mem_toFinset.mpr (hall word (List.mem_toFinset.mp hword))
  · intro word _ hword
    rw [hx]
    exact if_neg fun h => hword (List.mem_toFinset.mpr h)
  · exact hnormed.pages page hpage hall

/-- **When the greater cosine wins.** Of two pages that have all words of a query among their indexed words,
the one with the greater cosine is listed first, in whatever order the maps are gone through, exactly when
all words can be asked for, both pages have rows, and its cosine is still the greater one after each is
divided by the share of its page that the query words have. -/
theorem lists_before_iff (hcut : SymbolsAlone cut) (o o' : Unordered)
    (indexStop webStop sentence : Str) (pages : List WebPage) (webPageLib : List PageRow) :
    let pageLib := (createXml pages).1
    let q : WebPageQuery (Option ℝ) := (WebPageQuery.new webStop).cut cut sentence
    let x := queryVector webPageLib.length (exactTable o cut indexStop pageLib) q
    let cosine := fullCosine cut (words indexStop) pageLib x
    let share := queryShare cut (words indexStop) q.queryWords pageLib
    ∀ p ∈ pageLib, ∀ p' ∈ pageLib, HasAll cut (words indexStop) q.queryWords p →
      HasAll cut (words indexStop) q.queryWords p' →
      Normed cut (words indexStop) q.queryWords pageLib x → cosine p' < cosine p →
      (ListsBefore o o' cut indexStop webStop sentence pageLib webPageLib p.docId p'.docId ↔
        (∀ word ∈ q.queryWords, AllQuotable word) ∧ (∃ row ∈ webPageLib, row.id = p.docId) ∧
          (∃ row ∈ webPageLib, row.id = p'.docId) ∧ cosine p' / share p' < cosine p / share p) := by
  intro pageLib q x cosine share p hp p' hp' hall hall' hnormed hlt
  have hnumbered : Numbered pageLib := numbered_createXml pages
  have hne : p.docId ≠ p'.docId := by
    intro hid
    obtain rfl := hnumbered.eq_of_docId hp hp' hid
    exact lt_irrefl _ hlt
  have hkey : cosine p / share p = _ := sortKey_eq hnumbered hp rfl hnormed hall
  have hkey' : cosine p' / share p' = _ := sortKey_eq hnumbered hp' rfl hnormed hall'
  rw [hkey, hkey']
  exact listsBefore_iff hcut hnumbered rfl rfl hnormed hp hall hp' hall' hne

/-- The table has a word on no more pages than the library. -/
theorem length_selectIds_le (hcut : SymbolsAlone cut) (o : Unordered) (contents : Str)
    (pageLib : List WebPage) (word : Str) :
    (selectIds (exactTable o cut contents pageLib) word).length ≤
      documentFrequency cut (words contents) pageLib word := by
  have hsub : (selectIds (exactTable o cut contents pageLib) word).Sublist
      (selectIds (buildInvertIndex exactReals o cut (some contents) pageLib).rows word) := by
    unfold exactTable
    rw [storedRows_index hcut]
    exact (List.filter_sublist.filter _).map _
  refine hsub.length_le.trans (le_of_eq ?_)
  rw [selectIds_rows, length_postings]
  exact times_pagesCount o cut (words contents) pageLib word

section Single

/-! ### A query of one word

Four pages; the first two have the word of the query, and the second one has no other word. -/

/-- The page library. -/
def fourPages : List WebPage :=
  (createXml [⟨0, lit "a", lit "http://a", lit "国中"⟩, ⟨0, lit "b", lit "http://b", lit "国"⟩,
    ⟨0, lit "c", lit "http://c", lit "文"⟩, ⟨0, lit "d", lit "http://d", lit "字"⟩]).1

/-- The rows of its pages. -/
def fourRows : List PageRow :=
  (createXml [⟨0, lit "a", lit "http://a", lit "国中"⟩, ⟨0, lit "b", lit "http://b", lit "国"⟩,
    ⟨0, lit "c", lit "http://c", lit "文"⟩, ⟨0, lit "d", lit "http://d", lit "字"⟩]).2

/-- The query. -/
def singleQuery : WebPageQuery (Option ℝ) := (WebPageQuery.new []).cut runes (lit "国")

/-- Its vector. -/
noncomputable def singleVector : Str → ℝ :=
  queryVector fourRows.length (exactTable .asIs runes [] fourPages) singleQuery

def firstPage : WebPage := ⟨1, lit "a", lit "http://a", lit "国中"⟩

def secondPage : WebPage := ⟨2, lit "b", lit "http://b", lit "国"⟩

theorem single_pages : secondPage ∈ fourPages ∧ firstPage ∈ fourPages ∧
    HasAll runes (words []) singleQuery.queryWords secondPage ∧
    HasAll runes (words []) singleQuery.queryWords firstPage := by
  unfold HasAll
  exact ⟨List.mem_cons_of_mem _ List.mem_cons_self, List.mem_cons_self, by decide,
    by decide⟩

theorem singleQuery_words : singleQuery.queryWords = [lit "国"] := by decide

theorem singleVector_pos : 0 < singleVector (lit "国") := by
  have hword : lit "国" ∈ singleQuery.queryWords := by decide
  have hfrequency : documentFrequency runes (words []) fourPages (lit "国") + 1 < fourRows.length := by
    decide
  have hlen := length_selectIds_le runes_symbolsAlone .asIs [] fourPages (lit "国")
  unfold singleVector queryVector
  rw [if_pos hword]
  exact realWeight_pos (by decide) (by omega)

theorem pageVector_pos {page : WebPage} (hcount : 0 < (pageWords runes (words []) page).count
    (lit "国")) : 0 < pageVector runes (words []) fourPages page (lit "国") :=
  realWeight_pos hcount (by decide)

theorem normed_single : Normed runes (words []) singleQuery.queryWords fourPages singleVector := by
  rw [singleQuery_words]
  constructor
  · rw [List.toFinset_cons, List.toFinset_nil, insert_empty_eq, length_singleton]
    exact (abs_pos.mpr singleVector_pos.ne').ne'
  · intro page _ hall
    have hcount : 0 < (pageWords runes (words []) page).count (lit "国") :=
      List.count_pos_iff.mpr (hall _ List.mem_cons_self)
    rw [List.toFinset_cons, List.toFinset_nil, insert_empty_eq, length_singleton]
    exact (abs_pos.mpr (pageVector_pos hcount).ne').ne'

/-- The second page has the greater cosine: the first one has another word. -/
theorem fullCosine_lt : fullCosine runes (words []) fourPages singleVector firstPage <
    fullCosine runes (words []) fourPages singleVector secondPage := by
  have hfirst : (pageWords runes (words []) firstPage).toFinset = {lit "国", lit "中"} := by
    decide
  have hsecond : (pageWords runes (words []) secondPage).toFinset = {lit "国"} := by decide
  have hpos : 0 < pageVector runes (words []) fourPages firstPage (lit "国") :=
    pageVector_pos (by decide)
  have hother : 0 < pageVector runes (words []) fourPages firstPage (lit "中") :=
    realWeight_pos (by decide) (by decide)
  have hsub : ({lit "国"} : Finset Str) ⊆ {lit "国", lit "中"} := by decide
  have hnot : lit "中" ∉ singleQuery.queryWords := by decide
  have houtside : singleVector (lit "中") = 0 := by
    unfold singleVector queryVector
    rw [if_neg hnot]
  have hpart : 0 < length {lit "国"} (pageVector runes (words []) fourPages firstPage) := by
    rw [length_singleton]
    exact abs_pos.mpr hpos.ne'
  have hkey := cosine_div_share hsub (x := singleVector)
    (y := pageVector runes (words []) fourPages firstPage)
    (by
      intro word hword hnot
      rcases Finset.mem_insert.mp hword with rfl | hword
      · exact absurd (Finset.mem_singleton_self _) hnot
      · rw [Finset.mem_singleton.mp hword]
        exact houtside) hpart.ne'
  have hshorter := length_lt (x := pageVector runes (words []) fourPages firstPage) hsub
    (i := lit "中") (by decide) (by decide) hother.ne'
  have hshare : share {lit "国"} {lit "国", lit "中"}
      (pageVector runes (words []) fourPages firstPage) < 1 :=
    (div_lt_one (hpart.trans hshorter)).mpr hshorter
  have hsharepos : 0 < share {lit "国"} {lit "国", lit "中"}
      (pageVector runes (words []) fourPages firstPage) := div_pos hpart (hpart.trans hshorter)
  rw [cosine_singleton singleVector_pos hpos, div_eq_one_iff_eq hsharepos.ne'] at hkey
  unfold fullCosine
  rw [hfirst, hsecond, hkey, cosine_singleton singleVector_pos (pageVector_pos (by decide))]
  exact hshare

/-- The condition for the two pages. -/
theorem lists_before_iff_single :
    (SymbolsAlone runes ∧ secondPage ∈ fourPages ∧ firstPage ∈ fourPages ∧
      HasAll runes (words []) singleQuery.queryWords secondPage ∧
      HasAll runes (words []) singleQuery.queryWords firstPage ∧
      Normed runes (words []) singleQuery.queryWords fourPages singleVector) ∧
    (ListsBefore .asIs .asIs runes [] [] (lit "国") fourPages fourRows secondPage.docId
        firstPage.docId ↔
      (∀ word ∈ singleQuery.queryWords, AllQuotable word) ∧
        (∃ row ∈ fourRows, row.id = secondPage.docId) ∧ (∃ row ∈ fourRows, row.id = firstPage.docId) ∧
        fullCosine runes (words []) fourPages singleVector firstPage /
            queryShare runes (words []) singleQuery.queryWords fourPages firstPage <
          fullCosine runes (words []) fourPages singleVector secondPage /
            queryShare runes (words []) singleQuery.queryWords fourPages secondPage) := by
  obtain ⟨hsecond, hfirst, hall, hall'⟩ := single_pages
  refine ⟨⟨runes_symbolsAlone, hsecond, hfirst, hall, hall', normed_single⟩, ?_⟩
  exact lists_before_iff runes_symbolsAlone .asIs .asIs [] [] (lit "国") _ fourRows secondPage
    hsecond firstPage hfirst hall hall' normed_single fullCosine_lt

/-- Both pages have the key one. The page with the smaller weight for the one word of the query is
listed first in one of the orders of the loop. -/
theorem one_word_not_ranked :
    secondPage ∈ fourPages ∧ firstPage ∈ fourPages ∧
    HasAll runes (words []) singleQuery.queryWords secondPage ∧
    HasAll runes (words []) singleQuery.queryWords firstPage ∧
    Normed runes (words []) singleQuery.queryWords fourPages singleVector ∧
    fullCosine runes (words []) fourPages singleVector firstPage <
      fullCosine runes (words []) fourPages singleVector secondPage ∧
    ¬ ListsBefore .asIs .asIs runes [] [] (lit "国") fourPages fourRows secondPage.docId
        firstPage.docId := by
  obtain ⟨hsecond, hfirst, hall, hall'⟩ := single_pages
  refine ⟨hsecond, hfirst, hall, hall', normed_single, fullCosine_lt, fun h => ?_⟩
  have hnumbered : Numbered fourPages := numbered_createXml _
  have hquery : singleQuery = (WebPageQuery.new []).cut runes (lit "国") := rfl
  have hvector : singleVector =
      queryVector fourRows.length (exactTable .asIs runes [] fourPages) singleQuery := rfl
  obtain ⟨-, -, -, hlt⟩ := (listsBefore_iff runes_symbolsAlone hnumbered hquery hvector normed_single
    hsecond hall hfirst hall' (by decide)).mp h
  have hkey : ∀ page ∈ fourPages, 0 < (pageWords runes (words []) page).count (lit "国") →
      sortKey runes (words []) singleQuery.queryWords fourPages singleVector page.docId = 1 := by
    intro page hpage hcount
    unfold sortKey
    rw [pageAt_docId hnumbered hpage, singleQuery_words]
    exact cosine_singleton singleVector_pos (pageVector_pos hcount)
  rw [hkey _ hsecond (by decide), hkey _ hfirst (by decide)] at hlt
  exact lt_irrefl _ hlt

end Single

end LightSearch
