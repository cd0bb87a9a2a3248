import LightSearch.Lib.Container
import LightSearch.Lib.Decimal
import Mathlib.Data.List.Range

/-!
# The inverted index of the page library

`createXml` numbers the pages, and `buildInvertIndex` numbers them a second time: it counts the words
of each page, then how many pages have each word, and lists for each word the pages that have it,
with a weight. The segmenter that cuts a page into tokens and the arithmetic of the weights are
parameters; the loops over hash maps go in any order.

Within one page the counting keeps a word from coming twice (`count_wordsOf`), so the number of pages
of a word counts a page once (`times_pagesCount`).
-/

set_option autoImplicit false

namespace LightSearch

open Cxx HashMap

/-- A page; the first three fields go into the library, the fourth is what is indexed. -/
structure WebPage where
  docId : Nat
  docTitle : Str
  docUr : Str
  docContent : Str

def WebPage.getDoc (page : WebPage) : Str := page.docContent

/-- A row of `webPageLib`. -/
structure PageRow where
  id : Nat
  url : Str
  title : Str
  description : Str

/-- The statement that inserts the row. -/
def PageRow.sql (row : PageRow) : Str :=
  lit "INSERT INTO webPageLib (id, url,title,description) VALUES (" ++ decimal row.id ++ lit ",'" ++
    row.url ++ lit "','" ++ row.title ++ lit "','" ++ row.description ++ lit "');"

/-- The loop of `createXml` with its counter: the pages with their ids, and the rows. -/
def createXmlFrom (i : Nat) : List WebPage → List WebPage × List PageRow
  | [] => ([], [])
  | page :: rest =>
    let page := { page with docId := i + 1 }
    let row : PageRow := ⟨page.docId, page.docUr, page.docTitle, page.docContent⟩
    let (pages, rows) := createXmlFrom (i + 1) rest
    (page :: pages, row :: rows)

def createXml (pageLib : List WebPage) : List WebPage × List PageRow := createXmlFrom 0 pageLib

/-! ## Building the index -/

/-- The arithmetic of the weights. `printed` is what `to_string` and the table keep of a number. -/
structure Arith (R : Type) where
  ofNat : Nat → R
  add : R → R → R
  mul : R → R → R
  div : R → R → R
  log2 : R → R
  sqrt : R → R
  printed : R → R

/-- The arithmetic of `double`; `to_string` keeps six decimals. -/
def doubles : Arith Float where
  ofNat := Float.ofNat
  add := fun x y => x + y
  mul := fun x y => x * y
  div := fun x y => x / y
  log2 := Float.log2
  sqrt := Float.sqrt
  printed := fun x => Float.round (x * 1000000) / 1000000

/-- A row of `invertLib`. -/
structure InvertRow (R : Type) where
  word : Str
  webPageId : Nat
  weight : R

/-- What `buildInvertIndex` works out: the number of pages that have each word, `_invertIndexLib`, and
the rows of `invertLib`. -/
structure InvertIndex (R : Type) where
  pagesCount : Map Str Nat
  invertIndexLib : Map Str (List (Nat × R))
  rows : List (InvertRow R)

/-- The white space tokens: blank, newline, ideographic space, no-break space. -/
def blankTokens : List Str := [lit " ", lit "\n", [0xE3, 0x80, 0x80], [0xC2, 0xA0]]

/-- One token of a page: it is counted unless it is a stop word or white space. The counts are
`double`s in the source, which are exact for all numbers of tokens. -/
def countToken (stopWords : List Str) (wordCount : Map Str Nat) (str : Str) : Map Str Nat :=
  if str ∈ stopWords then wordCount
  else if str ∈ blankTokens then wordCount
  else bump wordCount str

/-- The first loop: the counts of each page, and the number of pages of each word. -/
def countPages (o : Unordered) (cut : Str → List Str) (stopWords : List Str)
    (pageLib : List WebPage) : List (Map Str Nat) × Map Str Nat :=
  pageLib.foldl (fun (pagesWordCount, pagesCount) page =>
    let wordCount := (cut page.getDoc).foldl (countToken stopWords) ∅
    (pagesWordCount ++ [wordCount],
      (inOrder o wordCount).foldl (fun pagesCount elem => bump pagesCount elem.1) pagesCount))
    ([], ∅)

variable {R : Type}

/-- The weights of one page: the frequency of each word times its inverse document frequency, divided
by the norm. Both loops over the page's map go in the same order, since no key is inserted. -/
def pageWeights (A : Arith R) (o : Unordered) (size : Nat) (pagesCount elem : Map Str Nat) :
    List (Str × R) :=
  let weights := (inOrder o elem).map fun pairFreq =>
    let IDF := A.log2 (A.div (A.ofNat size)
      (A.add (A.ofNat (times pagesCount pairFreq.1)) (A.ofNat 1)))
    (pairFreq.1, A.mul (A.ofNat pairFreq.2) IDF)
  let sum := weights.foldl (fun sum w => A.add sum (A.mul w.2 w.2)) (A.ofNat 0)
  weights.map fun w => (w.1, A.div w.2 (A.sqrt sum))

/-- The second loop from page `i` on: the weights of a page go into the lists of its words. -/
def invertFrom (A : Arith R) (o : Unordered) (size : Nat) (pagesCount : Map Str Nat) (i : Nat)
    (lib : Map Str (List (Nat × R))) : List (Map Str Nat) → Map Str (List (Nat × R))
  | [] => lib
  | elem :: rest =>
    invertFrom A o size pagesCount (i + 1)
      (pushAll lib ((pageWeights A o size pagesCount elem).map fun w => (w.1, (i + 1, w.2)))) rest

/-- `buildInvertIndex` with the contents of the stop word file, which may not open. -/
def buildInvertIndex (A : Arith R) (o : Unordered) (cut : Str → List Str) (stopFile : Option Str)
    (pageLib : List WebPage) : InvertIndex R :=
  match stopFile with
  | none => ⟨∅, ∅, []⟩
  | some contents =>
    let (pagesWordCount, pagesCount) := countPages o cut (words contents) pageLib
    let lib := invertFrom A o pageLib.length pagesCount 0 ∅ pagesWordCount
    { pagesCount := pagesCount
      invertIndexLib := lib
      rows := (inOrder o lib).flatMap fun pairFreq =>
        pairFreq.2.map fun elem => ⟨pairFreq.1, elem.1, A.printed elem.2⟩ }

/-! ## The words of a page -/

/-- A word that the index does not filter out. -/
def Indexed (stopWords : List Str) (word : Str) : Prop := word ∉ stopWords ∧ word ∉ blankTokens

instance (stopWords : List Str) (word : Str) : Decidable (Indexed stopWords word) :=
  inferInstanceAs (Decidable (_ ∧ _))

/-- The counts of a page are the tally of its tokens without those that are filtered out. -/
theorem foldl_countToken (stopWords tokens : List Str) :
    tokens.foldl (countToken stopWords) ∅ = tally (tokens.filter (Indexed stopWords ·)) := by
  unfold tally
  rw [List.foldl_filter]
  congr 1
  funext m str
  unfold countToken
  by_cases hstop : str ∈ stopWords
  · have hnot : ¬ Indexed stopWords str := fun h => h.1 hstop
    rw [if_pos hstop, if_neg (fun h => hnot (of_decide_eq_true h))]
  · by_cases hblank : str ∈ blankTokens
    · have hnot : ¬ Indexed stopWords str := fun h => h.2 hblank
      rw [if_neg hstop, if_pos hblank, if_neg (fun h => hnot (of_decide_eq_true h))]
    · rw [if_neg hstop, if_neg hblank, if_pos (decide_eq_true ⟨hstop, hblank⟩)]

/-- The words of a page that are indexed. -/
def pageWords (cut : Str → List Str) (stopWords : List Str) (page : WebPage) : List Str :=
  (cut page.getDoc).filter (Indexed stopWords ·)

theorem mem_pageWords {cut : Str → List Str} {stopWords : List Str} {page : WebPage} {word : Str} :
    word ∈ pageWords cut stopWords page ↔ word ∈ cut page.getDoc ∧ Indexed stopWords word := by
  unfold pageWords
  rw [List.mem_filter, decide_eq_true_iff]

/-- The distinct words of a map, in the order of a loop. -/
def wordsOf (o : Unordered) (elem : Map Str Nat) : List Str := (inOrder o elem).map Prod.fst

theorem count_wordsOf (o : Unordered) (tokens : List Str) (word : Str) :
    (wordsOf o (tally tokens)).count word = if word ∈ tokens then 1 else 0 := by
  have hmem : word ∈ wordsOf o (tally tokens) ↔ word ∈ tokens := by
    unfold wordsOf
    rw [List.mem_map]
    constructor
    · rintro ⟨⟨w, n⟩, hmem, rfl⟩
      rw [mem_inOrder, lookup_tally] at hmem
      split at hmem
      · next hw => exact hw
      · cases hmem
    · intro hw
      refine ⟨(word, tokens.count word), ?_, rfl⟩
      rw [mem_inOrder, lookup_tally, if_pos hw]
  by_cases hw : word ∈ tokens
  · rw [if_pos hw]
    exact List.count_eq_one_of_mem (nodup_inOrder o _) (hmem.mpr hw)
  · rw [if_neg hw]
    exact List.count_eq_zero_of_not_mem fun h => hw (hmem.mp h)

/-- **The counting loop**: each page's tally, and the tally of the pages' distinct words. -/
theorem countPages_eq (o : Unordered) (cut : Str → List Str) (stopWords : List Str)
    (pageLib : List WebPage) :
    countPages o cut stopWords pageLib =
      (pageLib.map fun page => tally (pageWords cut stopWords page),
        tally (pageLib.flatMap fun page => wordsOf o (tally (pageWords cut stopWords page)))) := by
  have hloop : ∀ (pages : List WebPage) (done : List (Map Str Nat)) (counted : Map Str Nat),
      pages.foldl (fun (pagesWordCount, pagesCount) page =>
        let wordCount := (cut page.getDoc).foldl (countToken stopWords) ∅
        (pagesWordCount ++ [wordCount],
          (inOrder o wordCount).foldl (fun pagesCount elem => bump pagesCount elem.1) pagesCount))
        (done, counted) =
      (done ++ pages.map fun page => tally (pageWords cut stopWords page),
        (pages.flatMap fun page => wordsOf o (tally (pageWords cut stopWords page))).foldl bump
          counted) := by
    intro pages
    induction pages with
    | nil =>
      intro done counted
      rw [List.map_nil, List.append_nil]
      rfl
    | cons page pages ih =>
      intro done counted
      rw [List.foldl_cons, ih, List.map_cons, List.flatMap_cons, List.foldl_append]
      simp only [foldl_countToken, wordsOf, List.foldl_map, List.append_assoc, List.singleton_append]
      rfl
  exact hloop pageLib [] ∅

/-- **The document frequency** of a word is the number of pages that have it. -/
theorem times_pagesCount (o : Unordered) (cut : Str → List Str) (stopWords : List Str)
    (pageLib : List WebPage) (word : Str) :
    times (countPages o cut stopWords pageLib).2 word =
      pageLib.countP fun page => word ∈ pageWords cut stopWords page := by
  rw [countPages_eq, times_tally]
  induction pageLib with
  | nil => rfl
  | cons page pageLib ih =>
    rw [List.flatMap_cons, List.count_append, ih, count_wordsOf, List.countP_cons]
    simp only [decide_eq_true_eq]
    omega

/-! ## The numbers of the pages -/

/-- The pages have the numbers 1, 2, ... in their order. -/
def Numbered (pageLib : List WebPage) : Prop := ∀ p ∈ pageLib.zipIdx 1, p.1.docId = p.2

theorem numbered_createXml (pageLib : List WebPage) : Numbered (createXml pageLib).1 := by
  have hloop : ∀ (pages : List WebPage) (i : Nat),
      ∀ p ∈ (createXmlFrom i pages).1.zipIdx (i + 1), p.1.docId = p.2 := by
    intro pages
    induction pages with
    | nil => exact fun _ _ hp => absurd hp List.not_mem_nil
    | cons page pages ih =>
      intro i p hp
      rcases List.mem_cons.mp hp with rfl | hp
      · rfl
      · exact ih (i + 1) p hp
  exact hloop pageLib 0

/-- A page with a number is one of the pages. -/
theorem mem_of_zipIdx {pageLib : List WebPage} {i : Nat} {p : WebPage × Nat}
    (hp : p ∈ pageLib.zipIdx i) : p.1 ∈ pageLib := by
  have hfst : p.1 ∈ (pageLib.zipIdx i).map Prod.fst := List.mem_map_of_mem hp
  rwa [List.zipIdx_map_fst] at hfst

/-- Numbered pages with one id are one page. -/
theorem Numbered.eq_of_docId {pageLib : List WebPage} (h : Numbered pageLib) {page page' : WebPage}
    (hpage : page ∈ pageLib) (hpage' : page' ∈ pageLib) (hid : page.docId = page'.docId) :
    page = page' := by
  have hplace : ∀ page ∈ pageLib, (page, page.docId) ∈ pageLib.zipIdx 1 := by
    intro page hpage
    rw [← List.zipIdx_map_fst (i := 1) (l := pageLib)] at hpage
    obtain ⟨p, hp, rfl⟩ := List.mem_map.mp hpage
    rw [h p hp]
    exact hp
  have hnodup : ((pageLib.zipIdx 1).map Prod.snd).Nodup := by
    rw [List.zipIdx_map_snd]
    exact List.nodup_range'
  exact congrArg Prod.fst
    (List.inj_on_of_nodup_map hnodup (hplace page hpage) (hplace page' hpage') hid)

end LightSearch
