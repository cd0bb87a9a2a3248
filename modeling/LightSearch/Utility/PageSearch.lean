import Std.Data.TreeSet
import LightSearch.PageLib.ExactWeights
import LightSearch.Utility.WebPageQuery

/-!
# From a sentence to its pages

A `WebPageQuery` cuts the sentence, drops the words of its own stop list, and asks the database for the
pages of each word that is left. The index was built with another stop list, and it drops white space
on top. A page has to come up for every word of the query, so one word that the query keeps and the
index does not have is enough to lose all pages.

`finds_page_iff` says for a page with all words of the query when it is found: exactly when the index
keeps these words too, each of them can stand between quotes, and the weights of the page are numbers.
-/

set_option autoImplicit false

namespace LightSearch

open Cxx HashMap

variable {R : Type}

/-- An object of the class, without the texts that it prints. -/
structure WebPageQuery (R : Type) where
  stopWords : List Str
  tmpQueryWords : List Str
  queryWords : List Str
  intersectionId : List Nat
  queryWeight : List R
  pageWeight : Map Nat (List R)
  pageCos : List (R × Nat)

/-- `select webPageId from invertLib where word = '...'`. -/
def idSelect : Select where
  before := lit "select webPageId from invertLib where word = "
  after := []

theorem idSelect_wellFormed : idSelect.WellFormed := by
  constructor <;> decide

namespace WebPageQuery

/-- The constructor with `loadStopWords`. A stop word file that does not open ends the program. -/
def new (contents : Str) : WebPageQuery R where
  stopWords := words contents
  tmpQueryWords := []
  queryWords := []
  intersectionId := []
  queryWeight := []
  pageWeight := ∅
  pageCos := []

/-- `cut`: `_queryWords` is a `set<string>`. `_tmpQueryWords` is not cleared. -/
def cut (segment : Str → List Str) (q : WebPageQuery R) (sentence : Str) : WebPageQuery R :=
  let kept := (segment sentence).filter fun elem => elem ∉ q.stopWords
  { q with
    tmpQueryWords := q.tmpQueryWords ++ kept
    queryWords := (Std.TreeSet.ofList kept compare).toList }

/-- One query word in the first loop of `getIntersectionId`. -/
def countWord (invertLib : List (InvertRow R)) (result : Map Nat Nat) (elem : Str) :
    Except Fault (Map Nat Nat) := do
  let value ← idSelect.denoted (idSelect.sql elem)
  .ok ((selectIds invertLib value).foldl bump result)

/-- `getIntersectionId`; `_intersectionId` is not cleared. -/
def getIntersectionId (o : Unordered) (invertLib : List (InvertRow R)) (q : WebPageQuery R) :
    Except Fault (WebPageQuery R) := do
  let result ← Run.run (countWord invertLib) ∅ q.queryWords
  let ids := ((inOrder o result).filter fun elem => elem.2 = q.queryWords.length).map Prod.fst
  .ok { q with intersectionId := q.intersectionId ++ ids }

/-- The words of a query are the tokens that its stop list does not have. -/
theorem mem_queryWords {segment : Str → List Str} {q : WebPageQuery R} {sentence word : Str} :
    word ∈ (q.cut segment sentence).queryWords ↔
      word ∈ segment sentence ∧ word ∉ q.stopWords := by
  unfold cut
  rw [Std.TreeSet.mem_toList, Std.TreeSet.mem_ofList, List.contains_iff_mem, List.mem_filter,
    decide_eq_true_iff]

/-- Words that can stand between quotes are asked for as they are. -/
theorem getIntersectionId_quotable (o : Unordered) (invertLib : List (InvertRow R))
    {q : WebPageQuery R} (h : ∀ word ∈ q.queryWords, AllQuotable word) :
    q.getIntersectionId o invertLib = .ok { q with
      intersectionId := LightSearch.getIntersectionId o invertLib q.queryWords q.intersectionId } := by
  have hloop : ∀ (queryWords : List Str) (result : Map Nat Nat),
      (∀ word ∈ queryWords, AllQuotable word) →
      Run.run (countWord invertLib) result queryWords =
        .ok (queryWords.foldl (fun result elem => (selectIds invertLib elem).foldl bump result)
          result) := by
    intro queryWords
    induction queryWords with
    | nil => exact fun _ _ => rfl
    | cons word queryWords ih =>
      intro result hwords
      have hone : countWord invertLib result word =
          .ok ((selectIds invertLib word).foldl bump result) := by
        unfold countWord
        rw [denoted_quotable idSelect_wellFormed (hwords word List.mem_cons_self), Except.ok_bind]
      rw [Run.run_cons, hone, Except.ok_bind, List.foldl_cons]
      exact ih _ fun w hw => hwords w (List.mem_cons_of_mem _ hw)
  unfold getIntersectionId
  rw [hloop q.queryWords ∅ h, Except.ok_bind]
  rfl

/-- A query for a single character that cannot stand between quotes ends with a fault. -/
theorem quotable_of_getIntersectionId {o : Unordered} {invertLib : List (InvertRow R)}
    {q q' : WebPageQuery R} (h : q.getIntersectionId o invertLib = .ok q') {ch : UInt8}
    (hch : [ch] ∈ q.queryWords) : Quotable ch := by
  by_contra hquotable
  obtain ⟨result, hrun, -⟩ := Except.bind_eq_ok.mp h
  obtain ⟨result₁, result₂, hone⟩ := Run.run_step hrun hch
  unfold countWord at hone
  rw [denoted_not_quotable idSelect_wellFormed hquotable] at hone
  cases hone

end WebPageQuery

/-! ## The pages that the table has -/

/-- The number of pages that have a word, among those that the index keeps. -/
def documentFrequency (cut : Str → List Str) (stopWords : List Str) (pageLib : List WebPage)
    (word : Str) : Nat :=
  pageLib.countP fun page => word ∈ pageWords cut stopWords page

/-- A page with a word that tells it from the others: one that is not on exactly all pages but one. -/
def Weighable (cut : Str → List Str) (stopWords : List Str) (pageLib : List WebPage)
    (page : WebPage) : Prop :=
  ∃ word ∈ pageWords cut stopWords page,
    documentFrequency cut stopWords pageLib word + 1 ≠ pageLib.length

variable {A : Arith R} {text : R → Str} {o : Unordered} {cut : Str → List Str} {contents : Str}
  {pageLib : List WebPage}

/-- The weights of a page are numbers exactly when the page is weighable. -/
theorem numeral_pageWeight (hA : A.Weighs text) {page : WebPage} (hpage : page ∈ pageLib) {word : Str}
    (hword : word ∈ pageWords cut (words contents) page) :
    Numeral (text (A.printed (pageWeight A o pageLib.length
      (buildInvertIndex A o cut (some contents) pageLib).pagesCount
      (pageWords cut (words contents) page) word))) ↔
    Weighable cut (words contents) pageLib page := by
  generalize htokens : pageWords cut (words contents) page = tokens at hword
  have hfrequency : ∀ w, times (buildInvertIndex A o cut (some contents) pageLib).pagesCount w =
      documentFrequency cut (words contents) pageLib w := fun w =>
    times_pagesCount o cut (words contents) pageLib w
  have hcounts := hA.numeral_iff pageLib.length
    ((wordsOf o (tally tokens)).map fun w => (tokens.count w,
      times (buildInvertIndex A o cut (some contents) pageLib).pagesCount w))
    (List.length_pos_of_mem hpage)
    (by
      intro p hp
      obtain ⟨w, hw, rfl⟩ := List.mem_map.mp hp
      exact List.count_pos_iff.mpr (mem_wordsOf.mp hw))
    _ (List.mem_map_of_mem (mem_wordsOf.mpr hword))
  rw [List.map_map] at hcounts
  refine Iff.trans hcounts ?_
  unfold Weighable
  rw [htokens]
  constructor
  · rintro ⟨p, hp, hne⟩
    obtain ⟨w, hw, rfl⟩ := List.mem_map.mp hp
    exact ⟨w, mem_wordsOf.mp hw, hfrequency w ▸ hne⟩
  · rintro ⟨w, hw, hne⟩
    exact ⟨_, List.mem_map_of_mem (mem_wordsOf.mpr hw), (hfrequency w).symm ▸ hne⟩

theorem mem_selectIds {invertLib : List (InvertRow R)} {word : Str} {id : Nat} :
    id ∈ selectIds invertLib word ↔ ∃ row ∈ invertLib, row.word = word ∧ row.webPageId = id := by
  unfold selectIds
  rw [List.mem_map]
  constructor
  · rintro ⟨row, hrow, hid⟩
    obtain ⟨hmem, hword⟩ := List.mem_filter.mp hrow
    exact ⟨row, hmem, of_decide_eq_true hword, hid⟩
  · rintro ⟨row, hmem, hword, hid⟩
    exact ⟨row, List.mem_filter.mpr ⟨hmem, decide_eq_true hword⟩, hid⟩

/-- No word and id come into the table twice. -/
theorem unique_storedRows (hcut : SymbolsAlone cut) (text : R → Str) :
    Unique (storedRows text (buildInvertIndex A o cut (some contents) pageLib).rows) := by
  intro word
  rw [storedRows_index hcut]
  refine (unique_rows A o cut contents pageLib word).sublist ?_
  exact (List.filter_sublist.filter _).map _

/-- **Which pages the table has for a quotable word.** -/
theorem mem_selectIds_stored (hA : A.Weighs text) (hcut : SymbolsAlone cut)
    (hnumbered : Numbered pageLib) {page : WebPage} (hpage : page ∈ pageLib) {word : Str}
    (hquotable : AllQuotable word) :
    page.docId ∈ selectIds
        (storedRows text (buildInvertIndex A o cut (some contents) pageLib).rows) word ↔
      word ∈ pageWords cut (words contents) page ∧
        Weighable cut (words contents) pageLib page := by
  rw [storedRows_index hcut, mem_selectIds]
  constructor
  · rintro ⟨row, hrow, rfl, hid⟩
    obtain ⟨hrow, hstored⟩ := List.mem_filter.mp hrow
    obtain ⟨p, hp, hword, heq⟩ := mem_rows.mp hrow
    -- the page of the row is the page with its id
    have hsame : p.1 = page := by
      apply hnumbered.eq_of_docId (mem_of_zipIdx hp) hpage
      rw [hnumbered p hp, ← hid, heq]
    rw [hsame] at hword heq
    have hweight := (of_decide_eq_true hstored).2
    rw [heq] at hweight
    exact ⟨hword, (numeral_pageWeight hA hpage hword).mp hweight⟩
  · rintro ⟨hword, hweighable⟩
    have hfst : page ∈ (pageLib.zipIdx 1).map Prod.fst := by rwa [List.zipIdx_map_fst]
    obtain ⟨p, hp, rfl⟩ := List.mem_map.mp hfst
    refine ⟨⟨word, p.2, A.printed (pageWeight A o pageLib.length
      (buildInvertIndex A o cut (some contents) pageLib).pagesCount
      (pageWords cut (words contents) p.1) word)⟩, List.mem_filter.mpr ⟨?_, decide_eq_true ?_⟩, rfl,
      (hnumbered p hp).symm⟩
    · exact mem_rows.mpr ⟨p, hp, hword, rfl⟩
    · exact ⟨hquotable, (numeral_pageWeight hA hpage hword).mpr hweighable⟩

/-! ## When a page is found -/

/-- The page of an id that the query finds has every word in the table, so that the index keeps the
words of the query. -/
theorem kept_of_found (hA : A.Weighs text) (hcut : SymbolsAlone cut) (hnumbered : Numbered pageLib)
    {o' : Unordered} {page : WebPage} (hpage : page ∈ pageLib) {q q' : WebPageQuery R}
    {webStop sentence : Str} (hq : q = (WebPageQuery.new webStop).cut cut sentence)
    (hne : q.queryWords ≠ [])
    (hrun : q.getIntersectionId o'
      (storedRows text (buildInvertIndex A o cut (some contents) pageLib).rows) = .ok q')
    (hfound : page.docId ∈ q'.intersectionId) :
    (∀ word ∈ q.queryWords, Indexed (words contents) word ∧ AllQuotable word) ∧
      Weighable cut (words contents) pageLib page := by
  have hquotable : ∀ word ∈ q.queryWords, AllQuotable word := by
    intro word hword
    have htoken : word ∈ cut sentence := by
      rw [hq] at hword
      exact (WebPageQuery.mem_queryWords.mp hword).1
    rcases hcut.cases htoken with hall | ⟨ch, rfl, hch⟩
    · exact hall
    · exact absurd (WebPageQuery.quotable_of_getIntersectionId hrun hword) hch
  rw [WebPageQuery.getIntersectionId_quotable o' _ hquotable] at hrun
  obtain rfl := Except.ok.inj hrun
  have hempty : q.intersectionId = [] := by
    rw [hq]
    rfl
  dsimp only at hfound
  rw [hempty] at hfound
  have hrows := ((intersection_exact (unique_storedRows hcut text) o' hne).2 page.docId).mp hfound
  have hwords : ∀ word ∈ q.queryWords, word ∈ pageWords cut (words contents) page ∧
      Weighable cut (words contents) pageLib page := fun word hword =>
    (mem_selectIds_stored hA hcut hnumbered hpage (hquotable word hword)).mp (hrows word hword)
  obtain ⟨first, hfirst⟩ := List.exists_mem_of_ne_nil q.queryWords hne
  exact ⟨fun word hword => ⟨(mem_pageWords.mp (hwords word hword).1).2, hquotable word hword⟩,
    (hwords first hfirst).2⟩

/-- **When a page with all words of a query is found.** A page that has every word that the query
keeps, at least one, is found exactly when the index keeps these words too, all of them can stand
between quotes, and the page has weights. -/
theorem finds_page_iff (hA : A.Weighs text) (hcut : SymbolsAlone cut) (o o' : Unordered)
    (indexStop webStop sentence : Str) (pages : List WebPage) :
    let pageLib := (createXml pages).1
    let invertLib := storedRows text (buildInvertIndex A o cut (some indexStop) pageLib).rows
    let q : WebPageQuery R := (WebPageQuery.new webStop).cut cut sentence
    ∀ page ∈ pageLib, q.queryWords ≠ [] → (∀ word ∈ q.queryWords, word ∈ cut page.getDoc) →
      ((∃ q', q.getIntersectionId o' invertLib = .ok q' ∧ page.docId ∈ q'.intersectionId) ↔
        (∀ word ∈ q.queryWords, Indexed (words indexStop) word ∧ AllQuotable word) ∧
          Weighable cut (words indexStop) pageLib page) := by
  intro pageLib invertLib q page hpage hne hall
  have hnumbered : Numbered pageLib := numbered_createXml pages
  constructor
  · rintro ⟨q', hrun, hfound⟩
    exact kept_of_found hA hcut hnumbered hpage rfl hne hrun hfound
  · rintro ⟨hkept, hweighable⟩
    refine ⟨_, WebPageQuery.getIntersectionId_quotable o' invertLib fun word hword =>
      (hkept word hword).2, ?_⟩
    apply ((intersection_exact (unique_storedRows hcut text) o' hne).2 page.docId).mpr
    intro word hword
    apply (mem_selectIds_stored hA hcut hnumbered hpage (hkept word hword).2).mpr
    exact ⟨mem_pageWords.mpr ⟨hall word hword, (hkept word hword).1⟩, hweighable⟩

/-- One word, on both of two pages. -/
theorem finds_page_iff_two :
    let pages : List WebPage :=
      [⟨0, lit "one", lit "http://one", lit "国　"⟩, ⟨0, lit "two", lit "http://two", lit "国"⟩]
    let pageLib := (createXml pages).1
    let invertLib :=
      storedRows printReal (buildInvertIndex exactReals .asIs runes (some (lit "的")) pageLib).rows
    let q : WebPageQuery (Option ℝ) := (WebPageQuery.new (lit "的")).cut runes (lit "国的")
    (exactReals.Weighs printReal ∧ SymbolsAlone runes) ∧
    ∀ page ∈ pageLib, q.queryWords ≠ [] ∧ (∀ word ∈ q.queryWords, word ∈ runes page.getDoc) ∧
      ((∃ q', q.getIntersectionId .asIs invertLib = .ok q' ∧ page.docId ∈ q'.intersectionId) ↔
        (∀ word ∈ q.queryWords, Indexed (words (lit "的")) word ∧ AllQuotable word) ∧
          Weighable runes (words (lit "的")) pageLib page) := by
  intro pages pageLib invertLib q
  have hne : q.queryWords ≠ [] := by decide
  have hall : ∀ page ∈ pageLib, ∀ word ∈ q.queryWords, word ∈ runes page.getDoc := by
    decide
  exact ⟨⟨weighs_exactReals, runes_symbolsAlone⟩, fun page hpage => ⟨hne, hall page hpage,
    finds_page_iff weighs_exactReals runes_symbolsAlone .asIs .asIs (lit "的") (lit "的")
      (lit "国的") pages page hpage hne (hall page hpage)⟩⟩

/-- The ideographic space is in neither stop list. The query keeps it and the index does not, so the
page that has both tokens of the query is not found. -/
theorem ideographic_space_unfound :
    let pages : List WebPage :=
      [⟨0, lit "one", lit "http://one", lit "国　"⟩, ⟨0, lit "two", lit "http://two", lit "国"⟩]
    let pageLib := (createXml pages).1
    let invertLib :=
      storedRows printReal (buildInvertIndex exactReals .asIs runes (some (lit "的")) pageLib).rows
    let q : WebPageQuery (Option ℝ) := (WebPageQuery.new (lit "的")).cut runes (lit "国　")
    ∃ page ∈ pageLib, q.queryWords ≠ [] ∧ (∀ word ∈ q.queryWords, word ∈ runes page.getDoc) ∧
      ¬ ∃ q', q.getIntersectionId .asIs invertLib = .ok q' ∧ page.docId ∈ q'.intersectionId := by
  intro pages pageLib invertLib q
  have hpage : (createXml pages).1.head (List.cons_ne_nil _ _) ∈ pageLib := List.head_mem _
  have hne : q.queryWords ≠ [] := by decide
  have hall : ∀ word ∈ q.queryWords,
      word ∈ runes ((createXml pages).1.head (List.cons_ne_nil _ _)).getDoc := by decide
  have hspace : lit "　" ∈ q.queryWords ∧ ¬ Indexed (words (lit "的")) (lit "　") := by decide
  refine ⟨_, hpage, hne, hall, ?_⟩
  rintro ⟨q', hrun, hfound⟩
  obtain ⟨hkept, -⟩ := kept_of_found weighs_exactReals runes_symbolsAlone (numbered_createXml pages)
    hpage rfl hne hrun hfound
  exact hspace.2 (hkept _ hspace.1).1

end LightSearch
