import LightSearch.Utility.CppJieba
import LightSearch.Utility.PageSearch

/-!
# Searching for a word

A query for a word of the dictionary, in a library of texts in UTF-8. The tokens of the query are the
words that occur in it, and wherever the word occurs in a text, they are tokens of the text as well. So
the pages that are found are those in which the word occurs (`finds_word_iff`), apart from pages without
weights, and as long as the index keeps the tokens that the query keeps.

The segmenter leaves symbols alone in texts in UTF-8 only. Here it is asked for no others, so the results
about the index are used for `utf8Tokens`, which is the same on the texts that come up.
-/

set_option autoImplicit false

namespace LightSearch

open Cxx HashMap Cppjieba JiebaTool

variable {R W : Type} [Zero W]

/-! ## Segmenters that agree on the pages -/

section Agree

variable {cut cut' : Str → List Str} {pageLib : List WebPage}

/-- Segmenters that agree on the pages make the same index. -/
theorem buildInvertIndex_congr (h : ∀ page ∈ pageLib, cut page.getDoc = cut' page.getDoc)
    (A : Arith R) (o : Unordered) (stopFile : Option Str) :
    buildInvertIndex A o cut stopFile pageLib = buildInvertIndex A o cut' stopFile pageLib := by
  have hcount : ∀ stopWords, countPages o cut stopWords pageLib =
      countPages o cut' stopWords pageLib := by
    intro stopWords
    unfold countPages
    refine List.foldl_ext _ _ _ fun counts page hpage => ?_
    rw [h page hpage]
  cases stopFile with
  | none => rfl
  | some contents =>
    unfold buildInvertIndex
    dsimp only
    rw [hcount]

theorem pageWords_congr (h : ∀ page ∈ pageLib, cut page.getDoc = cut' page.getDoc)
    (stopWords : List Str) {page : WebPage} (hpage : page ∈ pageLib) :
    pageWords cut stopWords page = pageWords cut' stopWords page := by
  unfold pageWords
  rw [h page hpage]

theorem weighable_congr (h : ∀ page ∈ pageLib, cut page.getDoc = cut' page.getDoc)
    (stopWords : List Str) {page : WebPage} (hpage : page ∈ pageLib) :
    Weighable cut stopWords pageLib page ↔ Weighable cut' stopWords pageLib page := by
  have hfrequency : ∀ word, documentFrequency cut stopWords pageLib word =
      documentFrequency cut' stopWords pageLib word := by
    intro word
    refine List.countP_congr fun page hpage => ?_
    rw [pageWords_congr h stopWords hpage]
  unfold Weighable
  rw [pageWords_congr h stopWords hpage]
  simp only [hfrequency]

end Agree

/-! ## The query -/

section Word

variable {dict : DictTrie W}

open Classical in
/-- The tokens of texts in UTF-8 alone. -/
noncomputable def utf8Tokens (dict : DictTrie W) (target : Str) : List Str :=
  if Utf8.Valid target then tokens dict target else []

/-- A dictionary whose words can stand between quotes. -/
def AllWordsQuotable (dict : DictTrie W) : Prop :=
  ∀ ws : List Char, 2 ≤ ws.length → dict.Knows (ws.map Char.val) → AllQuotable (Utf8.encode ws)

theorem utf8Tokens_symbolsAlone (hplain : AllWordsQuotable dict) : SymbolsAlone (utf8Tokens dict) := by
  intro target token htoken
  unfold utf8Tokens at htoken
  split at htoken
  · next hvalid =>
    obtain ⟨cs, rfl⟩ := hvalid
    exact symbols_alone_encode hplain cs token htoken
  · exact absurd htoken List.not_mem_nil

/-- The pages keep their texts. -/
theorem getDoc_createXml (pages : List WebPage) :
    (createXml pages).1.map WebPage.getDoc = pages.map WebPage.getDoc := by
  have hfrom : ∀ i, (createXmlFrom i pages).1.map WebPage.getDoc = pages.map WebPage.getDoc := by
    induction pages with
    | nil => exact fun _ => rfl
    | cons page pages ih =>
      intro i
      unfold createXmlFrom
      dsimp only
      rw [List.map_cons, List.map_cons, ih]
      rfl
  exact hfrom 0

/-- A token of several characters is no white space. -/
theorem indexed_encode {us : List Char} (hlong : 2 ≤ us.length) (stopWords : List Str) :
    Indexed stopWords (Utf8.encode us) ↔ Utf8.encode us ∉ stopWords := by
  have hone : blankTokens = [[' '], ['\n'], ['　'], ['\u00a0']].map Utf8.encode := by decide
  have hblank : Utf8.encode us ∉ blankTokens := by
    rw [hone, List.mem_map]
    rintro ⟨vs, hvs, heq⟩
    obtain rfl := Utf8.encode_injective heq
    simp only [List.mem_cons, List.not_mem_nil, or_false] at hvs
    rcases hvs with rfl | rfl | rfl | rfl <;> exact absurd hlong (by decide)
  unfold Indexed
  simp [hblank]

/-- The words of a query for a word that it keeps. -/
theorem mem_queryWords_word {ws : List Char} (hlong : 2 ≤ ws.length) (hknows : dict.Knows (ws.map Char.val))
    (hclean : ∀ c ∈ ws, ¬ Separator c) (webStop : Str) {word : Str} :
    word ∈ ((WebPageQuery.new webStop : WebPageQuery R).cut (tokens dict) (Utf8.encode ws)).queryWords ↔
      (∃ us, 2 ≤ us.length ∧ dict.Knows (us.map Char.val) ∧ us <:+: ws ∧ word = Utf8.encode us) ∧
        word ∉ words webStop := by
  rw [WebPageQuery.mem_queryWords, tokens_of_word hlong hknows hclean]
  rfl

theorem valid_createXml {pages : List WebPage} (hvalid : ∀ page ∈ pages, Utf8.Valid page.getDoc) :
    ∀ page ∈ (createXml pages).1, Utf8.Valid page.getDoc := by
  intro page hpage
  have hmem := List.mem_map_of_mem (f := WebPage.getDoc) hpage
  rw [getDoc_createXml] at hmem
  obtain ⟨page', hpage', heq⟩ := List.mem_map.mp hmem
  exact heq ▸ hvalid page' hpage'

section Stored

variable {A : Arith R} {text : R → Str} {pageLib : List WebPage}

/-- On pages in UTF-8 the two segmenters agree. -/
theorem tokens_agree (hvalid : ∀ page ∈ pageLib, Utf8.Valid page.getDoc) :
    ∀ page ∈ pageLib, tokens dict page.getDoc = utf8Tokens dict page.getDoc :=
  fun page hpage => (if_pos (hvalid page hpage)).symm

/-- The pages that the database has for a word. -/
theorem mem_selectIds_tokens (hA : A.Weighs text) (hplain : AllWordsQuotable dict) (o : Unordered)
    (indexStop : Str) (hnumbered : Numbered pageLib) (hvalid : ∀ page ∈ pageLib, Utf8.Valid page.getDoc)
    {page : WebPage} (hpage : page ∈ pageLib) {word : Str} (hquotable : AllQuotable word) :
    page.docId ∈ selectIds
        (storedRows text (buildInvertIndex A o (tokens dict) (some indexStop) pageLib).rows) word ↔
      (word ∈ tokens dict page.getDoc ∧ Indexed (words indexStop) word) ∧
        Weighable (tokens dict) (words indexStop) pageLib page := by
  have hagree := @tokens_agree W _ dict pageLib hvalid
  have h := @mem_selectIds_stored R A text o (utf8Tokens dict) indexStop pageLib hA
    (utf8Tokens_symbolsAlone hplain) hnumbered page hpage word hquotable
  rw [← buildInvertIndex_congr hagree, mem_pageWords, ← hagree page hpage,
    ← weighable_congr hagree _ hpage] at h
  exact h

theorem unique_tokens (hplain : AllWordsQuotable dict) (o : Unordered) (indexStop : Str)
    (hvalid : ∀ page ∈ pageLib, Utf8.Valid page.getDoc) :
    Unique (storedRows text (buildInvertIndex A o (tokens dict) (some indexStop) pageLib).rows) := by
  have h := @unique_storedRows R A o (utf8Tokens dict) indexStop pageLib
    (utf8Tokens_symbolsAlone hplain) text
  rwa [← buildInvertIndex_congr (tokens_agree hvalid)] at h

end Stored

/-- A query finds the pages that the database has for all its words. -/
theorem found_iff_selected (o : Unordered) {invertLib : List (InvertRow R)} (hunique : Unique invertLib)
    {q : WebPageQuery R} (hquotable : ∀ word ∈ q.queryWords, AllQuotable word)
    (hempty : q.intersectionId = []) (hne : q.queryWords ≠ []) (docId : Nat) :
    (∃ q', q.getIntersectionId o invertLib = .ok q' ∧ docId ∈ q'.intersectionId) ↔
      ∀ word ∈ q.queryWords, docId ∈ selectIds invertLib word := by
  rw [WebPageQuery.getIntersectionId_quotable o invertLib hquotable, hempty,
    ← (intersection_exact hunique o hne).2 docId]
  constructor
  · rintro ⟨q', heq, hmem⟩
    obtain rfl := Except.ok.inj heq
    exact hmem
  · exact fun hmem => ⟨_, rfl, hmem⟩

/-- **Searching for a word.** The query for a word of the dictionary finds exactly the pages in whose texts
the word occurs, of those that have weights, if the index keeps the tokens that the query keeps. -/
theorem finds_word_iff {A : Arith R} {text : R → Str} (hA : A.Weighs text)
    (hplain : AllWordsQuotable dict) (o o' : Unordered) (indexStop webStop : Str) {pages : List WebPage}
    (hvalid : ∀ page ∈ pages, Utf8.Valid page.getDoc) {ws : List Char} (hlong : 2 ≤ ws.length)
    (hknows : dict.Knows (ws.map Char.val)) (hclean : ∀ c ∈ ws, ¬ Separator c)
    (hasked : Utf8.encode ws ∉ words webStop) :
    let pageLib := (createXml pages).1
    let invertLib := storedRows text (buildInvertIndex A o (tokens dict) (some indexStop) pageLib).rows
    let q : WebPageQuery R := (WebPageQuery.new webStop).cut (tokens dict) (Utf8.encode ws)
    ∀ page ∈ pageLib, ∀ cs, Utf8.encode cs = page.getDoc →
      ((∃ q', q.getIntersectionId o' invertLib = .ok q' ∧ page.docId ∈ q'.intersectionId) ↔
        ws <:+: cs ∧ Weighable (tokens dict) (words indexStop) pageLib page ∧
          ∀ us : List Char, us <:+: ws → 2 ≤ us.length → dict.Knows (us.map Char.val) →
            Utf8.encode us ∉ words webStop → Utf8.encode us ∉ words indexStop) := by
  intro pageLib invertLib q page hpage cs hcs
  have hnumbered : Numbered pageLib := numbered_createXml pages
  have hvalid' : ∀ page ∈ pageLib, Utf8.Valid page.getDoc := valid_createXml hvalid
  have hstored := fun word => @mem_selectIds_tokens R W _ dict A text pageLib hA hplain o indexStop
    hnumbered hvalid' page hpage word
  have hquery := fun word => @mem_queryWords_word R W _ dict ws hlong hknows hclean webStop word
  have hquotable : ∀ word ∈ q.queryWords, AllQuotable word := by
    intro word hword
    obtain ⟨⟨us, hus, hknown, -, rfl⟩, -⟩ := (hquery word).mp hword
    exact hplain us hus hknown
  have hself : Utf8.encode ws ∈ q.queryWords :=
    (hquery _).mpr ⟨⟨ws, hlong, hknows, List.infix_refl ws, rfl⟩, hasked⟩
  rw [found_iff_selected o' (unique_tokens hplain o indexStop hvalid') hquotable rfl
    (List.ne_nil_of_mem hself)]
  constructor
  · intro h
    obtain ⟨⟨htoken, -⟩, hweighable⟩ := (hstored _ (hquotable _ hself)).mp (h _ hself)
    rw [← hcs] at htoken
    refine ⟨((mem_tokens_encode hlong).mp htoken).2.2, hweighable, fun us hpart hus hknown hnot => ?_⟩
    have hword := (hquery _).mpr ⟨⟨us, hus, hknown, hpart, rfl⟩, hnot⟩
    have hindexed := ((hstored _ (hquotable _ hword)).mp (h _ hword)).1.2
    exact (indexed_encode hus _).mp hindexed
  · rintro ⟨hoccurs, hweighable, hkept⟩ word hword
    apply (hstored word (hquotable word hword)).mpr
    obtain ⟨⟨us, hus, hknown, hpart, rfl⟩, hnot⟩ := (hquery word).mp hword
    rw [← hcs]
    exact ⟨⟨(mem_tokens_encode hus).mpr ⟨hknown, fun c hc => hclean c (hpart.subset hc),
      hpart.trans hoccurs⟩, (indexed_encode hus _).mpr (hkept us hpart hus hknown hnot)⟩, hweighable⟩

theorem allWordsQuotable_oneWordDict : AllWordsQuotable oneWordDict := by
  intro ws _ hknows
  have hws : ws = ['中', '国'] :=
    List.map_injective_iff.mpr (fun _ _ h => Char.ext h) (knows_oneWordDict.mp hknows)
  rw [hws]
  decide

/-- The word is in one of two pages. -/
theorem finds_word_iff_zhongguo :
    let pages : List WebPage :=
      [⟨0, lit "one", lit "http://one", lit "中国人"⟩, ⟨0, lit "two", lit "http://two", lit "国"⟩]
    let pageLib := (createXml pages).1
    let invertLib := storedRows printReal
      (buildInvertIndex exactReals .asIs (tokens oneWordDict) (some (lit "的")) pageLib).rows
    let q : WebPageQuery (Option ℝ) :=
      (WebPageQuery.new (lit "的")).cut (tokens oneWordDict) (lit "中国")
    ∀ page ∈ pageLib, ∀ cs, Utf8.encode cs = page.getDoc →
      ((∃ q', q.getIntersectionId .asIs invertLib = .ok q' ∧ page.docId ∈ q'.intersectionId) ↔
        ['中', '国'] <:+: cs ∧ Weighable (tokens oneWordDict) (words (lit "的")) pageLib page ∧
          ∀ us : List Char, us <:+: ['中', '国'] → 2 ≤ us.length →
            oneWordDict.Knows (us.map Char.val) → Utf8.encode us ∉ words (lit "的") →
              Utf8.encode us ∉ words (lit "的")) := by
  intro pages
  have hvalid : ∀ page ∈ pages, Utf8.Valid page.getDoc := by
    intro page hpage
    simp only [pages, List.mem_cons, List.not_mem_nil, or_false] at hpage
    rcases hpage with rfl | rfl
    · exact Utf8.valid_lit "中国人"
    · exact Utf8.valid_lit "国"
  exact finds_word_iff weighs_exactReals allWordsQuotable_oneWordDict .asIs .asIs (lit "的") (lit "的")
    hvalid (by decide) (knows_oneWordDict.mpr rfl) not_separator_zhongguo (by decide)

end Word

end LightSearch
