import LightSearch.Dict.Recommender
import LightSearch.PageLib.RssReader
import LightSearch.Utility.PageRanking

/-!
# What the literals denote

Every statement of the program is put together from its text and unescaped values between quotes. The
values come from three places, and each has its own filter: the characters of a message, which
`cutString` cuts from it; the words of a query, which the segmenter cuts and the stop words leave; and
the texts of a page, from which `replaceRegex` takes quotes but no backslashes.

For each place, `literals_denote_iff` says exactly when all its statements are read as they are meant:
each literal denotes the value that was put in.
-/

set_option autoImplicit false

namespace LightSearch

open Cxx

/-- The query with a value put in is read as this query, and its literal denotes the value. -/
def Select.Denotes (select : Select) (value : Str) : Prop :=
  select.denoted (select.sql value) = .ok value

/-! ## The characters of a message -/

/-- The query of the mixed recommender for a character. -/
def mixedSelect (str : Str) : Select := if str.length = 1 then enSelect else cnSelect

/-- It is the query of its loop. -/
theorem mixedOne_eq (en cn : DictTables) (queryRes : QueryRes) (str : Str) :
    mixedOne en cn queryRes str =
      gatherOne (mixedSelect str) (if str.length = 1 then en else cn) queryRes str := by
  unfold mixedOne mixedSelect
  split
  · rfl
  · rfl

theorem mixedSelect_wellFormed (str : Str) : (mixedSelect str).WellFormed := by
  unfold mixedSelect
  split
  · exact enSelect_wellFormed
  · exact cnSelect_wellFormed

/-- The queries of the two recommenders for the characters of a message denote them. -/
def CharactersDenoted (message : Str) : Prop :=
  ∀ singleChars, cutString message = .ok singleChars →
    ∀ str ∈ singleChars, cnSelect.Denotes str ∧ (mixedSelect str).Denotes str

/-- A text that can be put between quotes denotes itself. -/
theorem AllQuotable.verbatim {value : Str} (h : AllQuotable value) : 0 ∉ value ∧ Sql.Verbatim value :=
  ⟨fun hzero => (h 0 hzero).1 rfl, Sql.verbatim_plain fun ch hch => (h ch hch).2⟩

/-- A single character that denotes itself can be put between quotes: no backslash does. -/
theorem quotable_of_verbatim {ch : UInt8} (hzero : 0 ∉ [ch]) (h : Sql.Verbatim [ch]) : Quotable ch := by
  obtain ⟨hquote, hbackslash, -⟩ := h
  refine ⟨fun heq => hzero (heq ▸ List.mem_singleton_self _), hquote, fun heq => ?_⟩
  rcases hbackslash heq with hnext | hnext
  · cases hnext
  · cases hnext

/-- **Which messages have characters that are denoted**: those without quote, backslash and NUL. -/
theorem charactersDenoted_iff (cs : List Char) :
    CharactersDenoted (Utf8.encode cs) ↔ AllQuotable (Utf8.encode cs) := by
  obtain ⟨singleChars, hcut, hchars⟩ := cutString_encode cs
  constructor
  · intro h ch hch
    by_contra hquotable
    have hstr := mem_cutString_of_not_quotable hcut hch hquotable
    obtain ⟨hzero, hverbatim⟩ := (denoted_iff cnSelect_wellFormed).mp (h singleChars hcut _ hstr).1
    exact hquotable (quotable_of_verbatim hzero hverbatim)
  · intro h singleChars' hcut' str hstr
    obtain rfl := Except.ok.inj (hcut.symm.trans hcut')
    obtain ⟨c, hc, rfl⟩ := (hchars str).mp hstr
    have hquotable : AllQuotable (String.utf8EncodeChar c) :=
      fun ch hch => h ch (List.mem_flatMap.mpr ⟨c, hc, hch⟩)
    exact ⟨(denoted_iff cnSelect_wellFormed).mpr hquotable.verbatim,
      (denoted_iff (mixedSelect_wellFormed _)).mpr hquotable.verbatim⟩

/-! ## The words of a query -/

/-- The queries for some words, with any page ids, denote them. -/
def WordsDenoted (queryWords : List Str) : Prop :=
  ∀ word ∈ queryWords, idSelect.Denotes word ∧ WebPageQuery.countSelect.Denotes word ∧
    ∀ id, (WebPageQuery.weightSelect id).Denotes word

/-- **Which words are denoted.** -/
theorem wordsDenoted_iff {queryWords : List Str} :
    WordsDenoted queryWords ↔ ∀ word ∈ queryWords, 0 ∉ word ∧ Sql.Verbatim word := by
  refine forall₂_congr fun word _ => ?_
  unfold Select.Denotes
  rw [denoted_iff idSelect_wellFormed, denoted_iff WebPageQuery.countSelect_wellFormed]
  simp only [denoted_iff (WebPageQuery.weightSelect_wellFormed _), forall_const, and_self]

/-! ## All statements -/

variable {R : Type}

/-- **When the literals denote what was meant.** The characters of a message in UTF-8: exactly when it
has no quote, no backslash and no NUL. The words of a query: exactly when each word that the stop list
leaves has no quote and no NUL, and a backslash only before `%` or `_`. The pages of feeds: exactly when
an underscore follows each backslash that the replacing leaves in a link, a title or a content. -/
theorem literals_denote_iff (segment : Str → List Str) (stopWords : Str) :
    (∀ cs, CharactersDenoted (Utf8.encode cs) ↔ AllQuotable (Utf8.encode cs)) ∧
    (∀ message,
      let queryWords := ((WebPageQuery.new stopWords : WebPageQuery R).cut segment message).queryWords
      WordsDenoted queryWords ↔ ∀ word ∈ queryWords, 0 ∉ word ∧ Sql.Verbatim word) ∧
    ∀ pageLib, (∀ page ∈ pageLib, FromFeed page) →
      ((∀ row ∈ (createXml pageLib).2, row.Denoted) ↔
        ∀ page ∈ pageLib, ∀ text ∈ [page.docUr, page.docTitle, page.docContent],
          Sql.Underscored text) :=
  ⟨charactersDenoted_iff, fun _ => wordsDenoted_iff, fun _ h => rows_denoted_iff h⟩

/-- An item of a feed with a title. -/
def titled (title : Str) : ItemNode :=
  ⟨some (some title), some (some (lit "http://a")), some (some (lit "text")), none⟩

/-- The page with a title. -/
def titledPage (title : Str) : WebPage := ⟨0, title, lit "http://a", lit "text"⟩

theorem titledPage_fromFeed : FromFeed (titledPage (lit "C:\\")) ∧ FromFeed (titledPage (lit "a\\_b")) :=
  ⟨⟨[titled (lit "<b>C:\\</b>")], [⟨lit "C:\\", lit "http://a", lit "text", []⟩], 0, rfl, _,
    List.mem_singleton_self _, rfl⟩,
   ⟨[titled (lit "'a\\%_b'")], [⟨lit "a\\_b", lit "http://a", lit "text", []⟩], 0, rfl, _,
    List.mem_singleton_self _, rfl⟩⟩

/-- Two pages, one of which ends the title with a backslash. -/
theorem literals_denote_iff_titles :
    let pageLib := [titledPage (lit "C:\\"), titledPage (lit "a\\_b")]
    (∀ page ∈ pageLib, FromFeed page) ∧
    (CharactersDenoted (Utf8.encode "中'".toList) ↔ AllQuotable (Utf8.encode "中'".toList)) ∧
    ((∀ row ∈ (createXml pageLib).2, row.Denoted) ↔
      ∀ page ∈ pageLib, ∀ text ∈ [page.docUr, page.docTitle, page.docContent],
        Sql.Underscored text) := by
  intro pageLib
  have hfeed : ∀ page ∈ pageLib, FromFeed page := by
    intro page hpage
    rcases List.mem_pair.mp hpage with rfl | rfl
    · exact titledPage_fromFeed.1
    · exact titledPage_fromFeed.2
  have hiff := literals_denote_iff (R := Nat) runes (lit "的")
  exact ⟨hfeed, hiff.1 _, hiff.2.2 pageLib hfeed⟩

/-- The single quote as a message has no result and ends the recommender, and a title that ends with a
backslash is not what its statement denotes. -/
theorem quote_not_denoted :
    (cutString (lit "'") = .ok [lit "'"] ∧
      cnSelect.denoted (cnSelect.sql (lit "'")) = .error .nullPointer ∧
      chQueryRes ⟨[], []⟩ (lit "'") = .error .nullPointer) ∧
    FromFeed (titledPage (lit "C:\\")) ∧
      ¬ ∀ row ∈ (createXml [titledPage (lit "C:\\")]).2, row.Denoted := by
  have hquote : ¬ Quotable 39 := by decide
  have hcut : cutString (lit "'") = .ok [lit "'"] := by decide
  have hgather : gatherOne cnSelect ⟨[], []⟩ ∅ (lit "'") = .error .nullPointer :=
    gatherOne_not_quotable _ cnSelect_wellFormed ∅ hquote
  have hqueryRes : chQueryRes ⟨[], []⟩ (lit "'") = .error .nullPointer := by
    unfold chQueryRes gather
    rw [hcut, Except.ok_bind, Run.run_cons, hgather, Except.error_bind]
  refine ⟨⟨hcut, denoted_not_quotable cnSelect_wellFormed hquote, hqueryRes⟩,
    titledPage_fromFeed.1, fun h => ?_⟩
  have hdenoted := PageRow.denoted_iff.mp (h ⟨1, lit "http://a", lit "C:\\", lit "text"⟩
    (List.mem_singleton_self _)) (lit "C:\\") (by decide)
  exact absurd hdenoted.2 (by decide)

end LightSearch
