import LightSearch.Lib.Utf8
import LightSearch.PageLib.Weights
import LightSearch.Utility.Query

/-!
# The table of the inverted index

`buildInvertIndex` sends one statement for each row: the word between quotes, the id, and the weight as
`to_string` prints it. The database refuses a statement whose literal does not end, and a weight that
is no number: `to_string` of `0.0 / 0.0` is `nan`. Nobody looks at what becomes of an insert, so the
table has the rows of the other statements (`storedRows_eq`).

A segmenter is expected to leave quotes and backslashes alone (`SymbolsAlone`): cppjieba makes a token
of several characters only from a word of its dictionary, and no word there has one of these.
-/

set_option autoImplicit false

namespace LightSearch

open Cxx HashMap

variable {R : Type}

/-- A number in a statement, as `to_string` prints every `double` but the infinite ones and `nan`. -/
def Numeral (s : Str) : Prop := s ≠ [] ∧ ∀ ch ∈ s, isdigit ch = true ∨ ch = 45 ∨ ch = 46

instance (s : Str) : Decidable (Numeral s) := inferInstanceAs (Decidable (_ ∧ _))

/-- The insert of a row, up to its literal and from behind it. -/
def InvertRow.insertInto (text : R → Str) (row : InvertRow R) : Select where
  before := lit "insert into invertLib (word, webPageId, weight) values("
  after := lit ", " ++ decimal row.webPageId ++ lit ", " ++ text row.weight ++ lit ")"

/-- `doUpdateQuery` on the insert of a row: the row that comes into the table, if one does. -/
def InvertRow.stored (text : R → Str) (row : InvertRow R) : Option (InvertRow R) :=
  if Numeral (text row.weight) then
    match (row.insertInto text).denoted ((row.insertInto text).sql row.word) with
    | .ok value => some { row with word := value }
    | .error _ => none
  else none

/-- `invertLib` after the inserts of the rows. -/
def storedRows (text : R → Str) (rows : List (InvertRow R)) : List (InvertRow R) :=
  rows.filterMap (InvertRow.stored text)

/-- A character that is not quotable is a token of its own. -/
def SymbolsAlone (cut : Str → List Str) : Prop :=
  ∀ text, ∀ token ∈ cut text, ∀ ch ∈ token, ¬ Quotable ch → token = [ch]

/-- A token is quotable, or it is one character that is not. -/
theorem SymbolsAlone.cases {cut : Str → List Str} (hcut : SymbolsAlone cut) {text token : Str}
    (htoken : token ∈ cut text) : AllQuotable token ∨ ∃ ch, token = [ch] ∧ ¬ Quotable ch := by
  by_cases hall : AllQuotable token
  · exact .inl hall
  · unfold AllQuotable at hall
    push Not at hall
    obtain ⟨ch, hch, hquotable⟩ := hall
    exact .inr ⟨ch, hcut text token htoken ch hch hquotable, hquotable⟩

/-- The tokens of cppjieba when the dictionary has none of their words: the characters. -/
def runes : Str → List Str
  | [] => []
  | ch :: s =>
    match runes s with
    | (next :: rune) :: rest =>
      if 128 ≤ ch ∧ Utf8.Continuation next then (ch :: next :: rune) :: rest
      else [ch] :: (next :: rune) :: rest
    | rest => [ch] :: rest

/-- A character of several bytes has no byte below 128. -/
theorem runes_symbolsAlone : SymbolsAlone runes := by
  have hshape : ∀ text, ∀ token ∈ runes text, (∃ ch, token = [ch]) ∨ ∀ ch ∈ token, 128 ≤ ch := by
    intro text
    induction text with
    | nil => exact fun _ h => absurd h List.not_mem_nil
    | cons ch s ih =>
      intro token htoken
      unfold runes at htoken
      split at htoken
      · next next rune rest hrest =>
        rw [hrest] at ih
        split at htoken
        · next hjoin =>
          rcases List.mem_cons.mp htoken with rfl | htoken
          · right
            rw [List.forall_mem_cons]
            refine ⟨hjoin.1, ?_⟩
            rcases ih _ List.mem_cons_self with ⟨c, hc⟩ | hall
            · rw [hc]
              obtain rfl := (List.cons.inj hc).1
              exact List.forall_mem_singleton.mpr hjoin.2.1
            · exact hall
          · exact ih token (List.mem_cons_of_mem _ htoken)
        · rcases List.mem_cons.mp htoken with rfl | htoken
          · exact .inl ⟨ch, rfl⟩
          · exact ih token htoken
      · next hrest =>
        rcases List.mem_cons.mp htoken with rfl | htoken
        · exact .inl ⟨ch, rfl⟩
        · exact ih token htoken
  intro text token htoken ch hch hquotable
  rcases hshape text token htoken with ⟨c, rfl⟩ | hall
  · rw [List.mem_singleton.mp hch]
  · have hhigh : ∀ ch : UInt8, 128 ≤ ch → Quotable ch := forall_byte (by decide +kernel)
    exact absurd (hhigh ch (hall ch hch)) hquotable

theorem quotable_of_isdigit : ∀ {ch : UInt8}, isdigit ch = true → Quotable ch :=
  @(forall_byte (by decide +kernel))

/-- The insert of a row with a number has nothing between its words that a literal could take in. -/
theorem insertInto_wellFormed {text : R → Str} {row : InvertRow R} (h : Numeral (text row.weight)) :
    (row.insertInto text).WellFormed := by
  have hnumeral : ∀ ch ∈ text row.weight, Quotable ch := by
    intro ch hch
    rcases h.2 ch hch with hdigit | rfl | rfl
    · exact quotable_of_isdigit hdigit
    · decide
    · decide
  have hid : ∀ ch ∈ decimal row.webPageId, Quotable ch := fun ch hch =>
    quotable_of_isdigit (isdigit_of_mem_decimal hch)
  have hcomma : ∀ ch ∈ lit ", ", Quotable ch := by decide
  have hclose : ∀ ch ∈ lit ")", Quotable ch := by decide
  have hafter : ∀ ch ∈ (row.insertInto text).after, Quotable ch := by
    intro ch hch
    simp only [InvertRow.insertInto, List.mem_append] at hch
    rcases hch with (((hch | hch) | hch) | hch) | hch
    · exact hcomma ch hch
    · exact hid ch hch
    · exact hcomma ch hch
    · exact hnumeral ch hch
    · exact hclose ch hch
  refine ⟨?_, fun ch hch => (hafter ch hch).2, fun hmem => (hafter 0 hmem).1 rfl⟩
  show 0 ∉ lit "insert into invertLib (word, webPageId, weight) values("
  decide

/-- A row that comes into the table as it is. -/
def InvertRow.Stored (text : R → Str) (row : InvertRow R) : Prop :=
  AllQuotable row.word ∧ Numeral (text row.weight)

instance (text : R → Str) (row : InvertRow R) : Decidable (row.Stored text) :=
  inferInstanceAs (Decidable (_ ∧ _))

theorem stored_of_quotable {text : R → Str} {row : InvertRow R} (hword : AllQuotable row.word) :
    row.stored text = if row.Stored text then some row else none := by
  unfold InvertRow.stored
  by_cases hnumeral : Numeral (text row.weight)
  · rw [if_pos hnumeral, denoted_quotable (insertInto_wellFormed hnumeral) hword,
      if_pos ⟨hword, hnumeral⟩]
  · rw [if_neg hnumeral, if_neg fun h => hnumeral h.2]

/-- The insert of a single character that is not quotable is refused. -/
theorem stored_of_symbol {text : R → Str} {row : InvertRow R} {ch : UInt8} (hword : row.word = [ch])
    (hch : ¬ Quotable ch) : row.stored text = none := by
  unfold InvertRow.stored
  by_cases hnumeral : Numeral (text row.weight)
  · rw [if_pos hnumeral, hword, denoted_not_quotable (insertInto_wellFormed hnumeral) hch]
  · rw [if_neg hnumeral]

/-- **The table has the rows with a quotable word and a number**, as they are. -/
theorem storedRows_eq (text : R → Str) {rows : List (InvertRow R)}
    (h : ∀ row ∈ rows, AllQuotable row.word ∨ ∃ ch, row.word = [ch] ∧ ¬ Quotable ch) :
    storedRows text rows = rows.filter fun row => row.Stored text := by
  unfold storedRows
  rw [← List.filterMap_eq_filter]
  apply List.filterMap_congr
  intro row hrow
  rcases h row hrow with hword | ⟨ch, hword, hch⟩
  · rw [stored_of_quotable hword]
    by_cases hstored : row.Stored text
    · rw [if_pos hstored, Option.guard, if_pos (decide_eq_true hstored)]
    · rw [if_neg hstored, Option.guard, if_neg fun h => hstored (of_decide_eq_true h)]
  · have hnot : ¬ row.Stored text := fun hstored => hch (hstored.1 ch (hword ▸ List.mem_cons_self))
    rw [stored_of_symbol hword hch, Option.guard, if_neg fun h => hnot (of_decide_eq_true h)]

/-- What the index relies on of its arithmetic. The weight of a word is zero only when it is on all pages
but one, since the logarithm of one is zero, and a quotient by the norm of a page is a number unless
all its weights are zero. -/
structure Arith.Weighs (A : Arith R) (text : R → Str) : Prop where
  numeral_iff : ∀ (size : Nat) (counts : List (Nat × Nat)), 0 < size → (∀ p ∈ counts, 0 < p.1) →
    ∀ p ∈ counts,
      Numeral (text (A.printed (A.div (rawWeight A size p.1 p.2)
        (A.sqrt (normSum A (counts.map fun p => rawWeight A size p.1 p.2)))))) ↔
      ∃ p' ∈ counts, p'.2 + 1 ≠ size

variable {A : Arith R} {o : Unordered} {cut : Str → List Str} {contents : Str}
  {pageLib : List WebPage}

/-- The table of an index whose segmenter leaves symbols alone. -/
theorem storedRows_index (hcut : SymbolsAlone cut) (text : R → Str) :
    storedRows text (buildInvertIndex A o cut (some contents) pageLib).rows =
      (buildInvertIndex A o cut (some contents) pageLib).rows.filter fun row => row.Stored text := by
  apply storedRows_eq
  intro row hrow
  obtain ⟨p, -, hword, -⟩ := mem_rows.mp hrow
  exact hcut.cases (mem_pageWords.mp hword).1

end LightSearch
