import LightSearch.Lib.Run
import LightSearch.Lib.Scan
import LightSearch.Lib.Sql
import LightSearch.PageLib.PageLibPreprocessor

/-!
# Reading the feeds

`traversingXML` takes the texts of an item from the XML library, as C strings, and `replaceRegex` takes
two things away from each of them: what stands between angle brackets, and a class of punctuation. The
constructor of a page chooses among the texts. The XML library and the fingerprint of a page are left
out.

In what is left no character is NUL, a quote or a percent sign (`replaceRegex_ok`), since the class has
the quote, and the percent sign, but not the backslash.
-/

set_option autoImplicit false

namespace LightSearch

open Cxx

/-- The texts of an item. -/
structure RssItem where
  title : Str
  link : Str
  description : Str
  content : Str

/-- What the XML library has for an item: for each of four children, if it is there, its text, if
`GetText` returns one. -/
structure ItemNode where
  title : Option (Option Str)
  link : Option (Option Str)
  description : Option (Option Str)
  content : Option (Option Str)

def replaceRegex (str : Str) : Except Fault Str := do
  let regex1 ← Regex.new (lit "<[^>]+>")
  let pattern ← Regex.new (lit "[!\"#$%&'[\\]]+")
  let str := regex1.replace str []
  .ok (pattern.replace str [])

/-- The text of a child: without the child it stays empty, and the null pointer is no string. -/
def childText : Option (Option Str) → Except Fault Str
  | none => .ok []
  | some none => .error .nullPointer
  | some (some text) => replaceRegex (cstr text)

/-- The body of `traversingXML` for a node: an item is kept when it has a description or a content. -/
def readItem (node : ItemNode) : Except Fault (Option RssItem) := do
  let title ← childText node.title
  let link ← childText node.link
  let description ← childText node.description
  let content ← childText node.content
  .ok (if node.description.isSome || node.content.isSome then
      some ⟨title, link, description, content⟩
    else none)

/-- `traversingXML` on a node and its siblings. -/
def traversingXML : List ItemNode → Except Fault (List RssItem)
  | [] => .ok []
  | node :: siblings => do
    let item ← readItem node
    let rss ← traversingXML siblings
    .ok (item.toList ++ rss)

/-- The constructor of a page; its id is not initialised. -/
def WebPage.new (docId : Nat) (tem : RssItem) : WebPage where
  docId := docId
  docTitle := tem.title
  docUr := tem.link
  docContent := if tem.content.length = 0 then tem.description else tem.content

/-- A page that was made from an item of a feed. -/
def FromFeed (page : WebPage) : Prop :=
  ∃ nodes rss docId, traversingXML nodes = .ok rss ∧ ∃ tem ∈ rss, page = WebPage.new docId tem

/-! ## What the replacing leaves -/

/-- The characters that are taken away. -/
def punctuation : Str := lit "!\"#$%&'[]"

theorem new_pattern : ∃ test, Regex.new (lit "[!\"#$%&'[\\]]+") = .ok (Regex.classPlus test) ∧
    ∀ ch : UInt8, test ch = decide (ch ∈ punctuation) :=
  ⟨_, rfl, forall_byte (by decide +kernel)⟩

/-- A text without NUL and without the punctuation. -/
def Cleaned (text : Str) : Prop := 0 ∉ text ∧ ∀ ch ∈ text, ch ∉ punctuation

theorem cleaned_nil : Cleaned [] := ⟨List.not_mem_nil, fun _ hmem => absurd hmem List.not_mem_nil⟩

/-- **What the replacing leaves**: it never throws, and takes the punctuation away. -/
theorem replaceRegex_ok {str : Str} (hclean : 0 ∉ str) :
    ∃ text, replaceRegex str = .ok text ∧ Cleaned text := by
  obtain ⟨test, hpattern, htest⟩ := new_pattern
  obtain ⟨regex1, hregex1⟩ : ∃ r, Regex.new (lit "<[^>]+>") = .ok r := ⟨_, rfl⟩
  refine ⟨(regex1.replace str []).filter fun ch => !test ch, ?_, ?_, ?_⟩
  · rw [replaceRegex, hregex1, hpattern]
    simp only [Except.ok_bind]
    exact congrArg Except.ok (Regex.replace_class test _)
  · intro hzero
    exact hclean (Regex.mem_of_mem_replace (List.mem_filter.mp hzero).1)
  · intro ch hch hpunctuation
    have hkept := (List.mem_filter.mp hch).2
    rw [htest, decide_eq_true hpunctuation] at hkept
    cases hkept

/-- The text of a child. -/
theorem childText_cleaned {child : Option (Option Str)} {text : Str} (h : childText child = .ok text) :
    Cleaned text := by
  cases child with
  | none =>
    obtain rfl := Except.ok.inj h
    exact cleaned_nil
  | some got =>
    cases got with
    | none => cases h
    | some raw =>
      obtain ⟨text', hok, hcleaned⟩ := replaceRegex_ok (zero_not_mem_cstr raw)
      obtain rfl := Except.ok.inj (hok.symm.trans h)
      exact hcleaned

/-- The texts of an item. -/
structure RssItem.Cleaned (tem : RssItem) : Prop where
  title : LightSearch.Cleaned tem.title
  link : LightSearch.Cleaned tem.link
  description : LightSearch.Cleaned tem.description
  content : LightSearch.Cleaned tem.content

theorem traversingXML_cleaned {nodes : List ItemNode} {rss : List RssItem}
    (h : traversingXML nodes = .ok rss) : ∀ tem ∈ rss, tem.Cleaned := by
  induction nodes generalizing rss with
  | nil =>
    obtain rfl := Except.ok.inj h
    exact fun _ hmem => absurd hmem List.not_mem_nil
  | cons node siblings ih =>
    obtain ⟨item, hitem, h⟩ := Except.bind_eq_ok.mp h
    obtain ⟨rest, hrest, h⟩ := Except.bind_eq_ok.mp h
    obtain rfl := Except.ok.inj h
    intro tem htem
    rcases List.mem_append.mp htem with hfirst | hlater
    · obtain ⟨title, htitle, hitem⟩ := Except.bind_eq_ok.mp hitem
      obtain ⟨link, hlink, hitem⟩ := Except.bind_eq_ok.mp hitem
      obtain ⟨description, hdescription, hitem⟩ := Except.bind_eq_ok.mp hitem
      obtain ⟨content, hcontent, hitem⟩ := Except.bind_eq_ok.mp hitem
      obtain rfl := Except.ok.inj hitem
      split at hfirst
      · obtain rfl := List.mem_singleton.mp hfirst
        exact ⟨childText_cleaned htitle, childText_cleaned hlink, childText_cleaned hdescription,
          childText_cleaned hcontent⟩
      · cases hfirst
    · exact ih hrest tem hlater

/-- **The fields of a page from a feed** have no NUL and none of the punctuation. -/
theorem FromFeed.cleaned {page : WebPage} (h : FromFeed page) :
    Cleaned page.docUr ∧ Cleaned page.docTitle ∧ Cleaned page.docContent := by
  obtain ⟨nodes, rss, docId, hnodes, tem, htem, rfl⟩ := h
  have hcleaned := traversingXML_cleaned hnodes tem htem
  refine ⟨hcleaned.link, hcleaned.title, ?_⟩
  unfold WebPage.new
  dsimp only
  split
  · exact hcleaned.description
  · exact hcleaned.content

/-! ## The statements of the pages -/

/-- The statement that inserts a page with an id. -/
def insertStatement (id : Nat) : Sql.Statement where
  before := lit "INSERT INTO webPageLib (id, url,title,description) VALUES (" ++ decimal id ++ lit ","
  afters := [lit ",", lit ",", lit ");"]

/-- The statement of a row is read as one statement whose literals denote the values of the row. -/
def PageRow.Denoted (row : PageRow) : Prop :=
  (insertStatement row.id).values (cstr row.sql) = some [row.url, row.title, row.description]

theorem insertStatement_sql (row : PageRow) :
    (insertStatement row.id).sql [row.url, row.title, row.description] = row.sql := by
  unfold Sql.Statement.sql insertStatement PageRow.sql
  simp only [Sql.fill, List.append_assoc, List.append_nil]
  rfl

theorem insertStatement_wellFormed (id : Nat) : (insertStatement id).WellFormed where
  before := by
    have htext : 0 ∉ lit "INSERT INTO webPageLib (id, url,title,description) VALUES (" := by
      decide
    unfold insertStatement
    simp only [List.mem_append, not_or]
    exact ⟨⟨htext, not_mem_decimal (by decide)⟩, by decide⟩
  afters := by
    show ∀ after ∈ [lit ",", lit ",", lit ");"], 0 ∉ after
    decide
  apart := by
    have hcomma : lit "," ≠ [] := by decide
    exact ⟨by decide, fun h => absurd h hcomma, by decide, fun h => absurd h hcomma, by decide,
      fun _ => rfl, trivial⟩

/-- Which rows are denoted by their statements. -/
theorem PageRow.denoted_iff {row : PageRow} :
    row.Denoted ↔ ∀ value ∈ [row.url, row.title, row.description], 0 ∉ value ∧ Sql.Verbatim value := by
  unfold PageRow.Denoted
  rw [← insertStatement_sql]
  exact Sql.values_sql_iff (insertStatement_wellFormed row.id) _ rfl

/-- The rows of `createXml` have the texts of the pages. -/
theorem rows_createXml (pageLib : List WebPage) :
    (createXml pageLib).2.map (fun row => [row.url, row.title, row.description]) =
      pageLib.map fun page => [page.docUr, page.docTitle, page.docContent] := by
  have hfrom : ∀ (pages : List WebPage) (i : Nat),
      (createXmlFrom i pages).2.map (fun row => [row.url, row.title, row.description]) =
        pages.map fun page => [page.docUr, page.docTitle, page.docContent] := by
    intro pages
    induction pages with
    | nil => exact fun _ => rfl
    | cons page pages ih => exact fun i => congrArg (_ :: ·) (ih (i + 1))
  exact hfrom pageLib 0

/-- **Which pages of a feed are denoted by their statements**: those where an underscore follows each
backslash. -/
theorem rows_denoted_iff {pageLib : List WebPage} (h : ∀ page ∈ pageLib, FromFeed page) :
    (∀ row ∈ (createXml pageLib).2, row.Denoted) ↔
      ∀ page ∈ pageLib, ∀ text ∈ [page.docUr, page.docTitle, page.docContent], Sql.Underscored text := by
  have hrows : (∀ row ∈ (createXml pageLib).2, row.Denoted) ↔
      ∀ texts ∈ pageLib.map fun page => [page.docUr, page.docTitle, page.docContent],
        ∀ text ∈ texts, 0 ∉ text ∧ Sql.Verbatim text := by
    rw [← rows_createXml, List.forall_mem_map]
    exact forall₂_congr fun row _ => PageRow.denoted_iff
  rw [hrows, List.forall_mem_map]
  refine forall₂_congr fun page hpage => forall₂_congr fun text htext => ?_
  have hcleaned : Cleaned text := by
    obtain ⟨hurl, htitle, hcontent⟩ := (h page hpage).cleaned
    rcases List.mem_cons.mp htext with rfl | htext
    · exact hurl
    · rcases List.mem_pair.mp htext with rfl | rfl
      · exact htitle
      · exact hcontent
  have hpunctuation : ∀ ch ∈ text, ch ≠ Sql.quote ∧ ch ≠ 37 := by
    intro ch hch
    have hkept := hcleaned.2 ch hch
    exact ⟨fun heq => hkept (heq ▸ by decide), fun heq => hkept (heq ▸ by decide)⟩
  rw [and_iff_right hcleaned.1, Sql.verbatim_iff hpunctuation]

end LightSearch
