import LightSearch.Lib.Sql
import LightSearch.Lib.Decimal

/-!
# The database

The tables of one dictionary, and the one kind of query that the recommenders send: all words whose
index has a character, with their frequencies. The program sends it as a text with the character put
between quotes, so the text is what `doQuery` gets here too. It goes to the server as a C string, its
literal is read by MySQL's rules, and a text that does not lex has no result: `mysql_store_result`
returns null and the next call uses it.

Two strings are equal for the database when their bytes are, and a column takes every string: a collation
of the server and the limits of `VARCHAR` are not here.
-/

set_option autoImplicit false

namespace LightSearch

open Cxx

/-- A row of `dictEn` or `dictCn`. -/
structure DictRow where
  id : Nat
  word : Str
  frequency : Nat

/-- A row of `indexEn` or `indexCn`: the word with the id has the character. -/
structure IndexRow where
  character : Str
  indexId : Nat

/-- The two tables of a dictionary. -/
structure DictTables where
  dict : List DictRow
  index : List IndexRow

/-- The rows of `dictEn` or `dictCn` after its inserts: `id` is AUTO_INCREMENT and starts from 1. -/
def autoIncrement (inserts : List (Str × Nat)) : List DictRow :=
  (inserts.zipIdx 1).map fun p => ⟨p.2, p.1.1, p.1.2⟩

/-- The answer to `SELECT word, frequency FROM dict, index WHERE index.character = '...' AND
dict.id = index.indexId`, its values as text. Characters are compared byte by byte, and the words of both
tables fit their columns. -/
def DictTables.join (t : DictTables) (character : Str) : List (List Str) :=
  t.dict.flatMap fun d =>
    (t.index.filter fun i => i.character = character ∧ d.id = i.indexId).map fun _ =>
      [d.word, decimal d.frequency]

/-- A query with one literal: its text up to the opening quote, and from behind the closing one. -/
structure Select where
  before : Str
  after : Str

/-- The text of the query with a value put between the quotes. -/
def Select.sql (select : Select) (value : Str) : Str :=
  select.before ++ Sql.quote :: (value ++ Sql.quote :: select.after)

/-- `Query::doQuery` on a text that should be the query: `answer` gives the rows for the value that
the literal denotes. -/
def doQuery (select : Select) (answer : Str → List (List Str)) (sql : Str) :
    Except Fault (List (List Str)) :=
  let text := cstr sql
  let opened := select.before ++ [Sql.quote]
  if opened.isPrefixOf text then
    match Sql.literal (text.drop opened.length) with
    | none => .error .nullPointer
    | some (value, rest) =>
      if rest = select.after then .ok (answer value) else .error (.thrown (lit "another query"))
  else .error (.thrown (lit "another query"))

/-- A query whose own text has no NUL, quote or backslash. -/
structure Select.WellFormed (select : Select) : Prop where
  before : 0 ∉ select.before
  after : ∀ ch ∈ select.after, Sql.Plain ch
  after_clean : 0 ∉ select.after

/-- A character that can stand between the quotes as it is. -/
def Quotable (ch : UInt8) : Prop := ch ≠ 0 ∧ Sql.Plain ch

instance (ch : UInt8) : Decidable (Quotable ch) := inferInstanceAs (Decidable (_ ∧ _))

/-- A text that can be put between quotes as it is. -/
def AllQuotable (word : Str) : Prop := ∀ ch ∈ word, Quotable ch

instance (word : Str) : Decidable (AllQuotable word) := inferInstanceAs (Decidable (∀ _ ∈ _, _))

/-- Bytes from 128 on can stand between quotes. -/
theorem quotable_of_not_ascii : ∀ {ch : UInt8}, 128 ≤ ch → Quotable ch :=
  @(forall_byte (by decide +kernel))

/-- What the server reads of a query whose text starts as it should. -/
theorem doQuery_text {select : Select} {answer : Str → List (List Str)} {sql rest : Str}
    (h : cstr sql = select.before ++ Sql.quote :: rest) :
    doQuery select answer sql =
      match Sql.literal rest with
      | none => .error .nullPointer
      | some (value, rest) =>
        if rest = select.after then .ok (answer value)
        else .error (.thrown (lit "another query")) := by
  have hsplit : cstr sql = (select.before ++ [Sql.quote]) ++ rest := by
    rw [h, List.append_assoc]
    rfl
  unfold doQuery
  simp only [hsplit, isPrefixOf_append, ↓reduceIte, List.drop_left]

/-- **A query for a quotable value asks for that value.** -/
theorem doQuery_quotable {select : Select} (hselect : select.WellFormed)
    (answer : Str → List (List Str)) {value : Str} (h : ∀ ch ∈ value, Quotable ch) :
    doQuery select answer (select.sql value) = .ok (answer value) := by
  have hclean : 0 ∉ select.sql value := by
    unfold Select.sql
    simp only [List.mem_append, List.mem_cons, not_or]
    exact ⟨hselect.before, by decide, fun hmem => (h 0 hmem).1 rfl, by decide, hselect.after_clean⟩
  have hafter : select.after.head? ≠ some Sql.quote := by
    intro hhead
    exact (hselect.after _ (List.mem_of_mem_head? hhead)).1 rfl
  have hcstr : cstr (select.sql value) =
      select.before ++ Sql.quote :: (value ++ Sql.quote :: select.after) := cstr_of_not_mem hclean
  rw [doQuery_text hcstr, Sql.literal_plain (fun ch hch => (h ch hch).2) hafter]
  exact if_pos rfl

/-- **A query for a single character that is not quotable has no result**, and the program uses a null
pointer: the literal does not end. -/
theorem doQuery_not_quotable {select : Select} (hselect : select.WellFormed)
    (answer : Str → List (List Str)) {ch : UInt8} (h : ¬ Quotable ch) :
    doQuery select answer (select.sql [ch]) = .error .nullPointer := by
  have hopen : Sql.literal select.after = none := Sql.literal_open hselect.after
  by_cases hzero : ch = 0
  · -- the C string ends before the character
    subst hzero
    have hopened : 0 ∉ select.before ++ [Sql.quote] := by
      simp only [List.mem_append, List.mem_cons, List.not_mem_nil, or_false, not_or]
      exact ⟨hselect.before, by decide⟩
    have hcstr : cstr (select.sql [0]) = select.before ++ Sql.quote :: [] := by
      have hcut := cstr_append_zero hopened (Sql.quote :: select.after)
      rwa [List.append_assoc] at hcut
    rw [doQuery_text hcstr]
    rfl
  · have hclean : 0 ∉ select.sql [ch] := by
      unfold Select.sql
      simp only [List.mem_append, List.mem_cons, List.not_mem_nil, or_false, not_or]
      exact ⟨hselect.before, by decide, Ne.symm hzero, by decide, hselect.after_clean⟩
    have hcstr : cstr (select.sql [ch]) =
        select.before ++ Sql.quote :: (ch :: Sql.quote :: select.after) := cstr_of_not_mem hclean
    rw [doQuery_text hcstr]
    by_cases hquote : ch = Sql.quote
    · -- the character and the closing quote are an escaped quote
      subst hquote
      rw [Sql.literal, if_pos rfl, if_pos rfl, hopen]
      rfl
    · -- the character escapes the closing quote
      have hback : ch = Sql.backslash := by
        by_contra hback
        exact h ⟨hzero, hquote, hback⟩
      subst hback
      rw [Sql.literal, if_neg (by decide), if_pos rfl, hopen]
      rfl

/-! ## The value that a statement denotes

A query whose rows are not text here, or a statement without rows, is asked through the value that its
literal denotes. -/

/-- The value that the literal of a statement denotes, when the text is the statement. -/
def Select.denoted (select : Select) (sql : Str) : Except Fault Str :=
  let text := cstr sql
  let opened := select.before ++ [Sql.quote]
  if opened.isPrefixOf text then
    match Sql.literal (text.drop opened.length) with
    | none => .error .nullPointer
    | some (value, rest) =>
      if rest = select.after then .ok value else .error (.thrown (lit "another query"))
  else .error (.thrown (lit "another query"))

theorem doQuery_eq_map (select : Select) (answer : Str → List (List Str)) (sql : Str) :
    doQuery select answer sql = (select.denoted sql).map answer := by
  unfold doQuery Select.denoted
  dsimp only
  split
  · cases Sql.literal ((cstr sql).drop (select.before ++ [Sql.quote]).length) with
    | none => rfl
    | some read =>
      dsimp only
      split
      · rfl
      · rfl
  · rfl

/-- A quotable value is denoted by its own statement. -/
theorem denoted_quotable {select : Select} (hselect : select.WellFormed) {value : Str}
    (h : ∀ ch ∈ value, Quotable ch) : select.denoted (select.sql value) = .ok value := by
  have hquery := doQuery_quotable hselect (fun value => [[value]]) h
  rw [doQuery_eq_map] at hquery
  cases hdenoted : select.denoted (select.sql value) with
  | error fault =>
    rw [hdenoted] at hquery
    cases hquery
  | ok value' =>
    rw [hdenoted] at hquery
    obtain rfl : value' = value := by simpa [Except.map] using hquery
    rfl

/-- A single character that is not quotable denotes nothing. -/
theorem denoted_not_quotable {select : Select} (hselect : select.WellFormed) {ch : UInt8}
    (h : ¬ Quotable ch) : select.denoted (select.sql [ch]) = .error .nullPointer := by
  have hquery := doQuery_not_quotable hselect (fun value => [[value]]) h
  rw [doQuery_eq_map] at hquery
  cases hdenoted : select.denoted (select.sql [ch]) with
  | error fault =>
    rw [hdenoted] at hquery
    exact congrArg Except.error (Except.error.inj hquery)
  | ok value =>
    rw [hdenoted] at hquery
    cases hquery

/-- The query as a statement with one literal. -/
def Select.statement (select : Select) : Sql.Statement := ⟨select.before, [select.after]⟩

theorem sql_statement (select : Select) (value : Str) :
    select.statement.sql [value] = select.sql value := by
  simp only [Sql.Statement.sql, Select.statement, Sql.fill, List.append_nil, Select.sql]

theorem statement_wellFormed {select : Select} (h : select.WellFormed) :
    select.statement.WellFormed where
  before := h.before
  afters _ hafter := List.mem_singleton.mp hafter ▸ h.after_clean
  apart := ⟨fun hhead => (h.after _ (List.mem_of_mem_head? hhead)).1 rfl, fun _ => rfl, trivial⟩

/-- The value that a text denotes is the one that the statement has. -/
theorem denoted_iff_values {select : Select} {sql value : Str} :
    select.denoted sql = .ok value ↔ select.statement.values (cstr sql) = some [value] := by
  unfold Select.denoted Sql.Statement.values Select.statement
  dsimp only
  constructor
  · intro h
    split at h
    · next hopened =>
      have hsplit := eq_append_of_isPrefixOf hopened
      rw [List.append_assoc] at hsplit
      cases hliteral : Sql.literal ((cstr sql).drop (select.before ++ [Sql.quote]).length) with
      | none =>
        rw [hliteral] at h
        cases h
      | some read =>
        rw [hliteral] at h
        dsimp only at h
        split at h
        · next hrest =>
          obtain rfl := Except.ok.inj h
          rw [hsplit, if_pos (isPrefixOf_append _ _), List.drop_left]
          exact Sql.literals_singleton.mpr ⟨_, rfl, hrest ▸ hliteral⟩
        · cases h
    · cases h
  · intro h
    split at h
    · next hbefore =>
      obtain ⟨t, ht, hliteral⟩ := Sql.literals_singleton.mp h
      have hsplit := eq_append_of_isPrefixOf hbefore
      have hopened : cstr sql = (select.before ++ [Sql.quote]) ++ t := by
        rw [hsplit, ht, List.append_assoc]
        rfl
      rw [hopened, if_pos (isPrefixOf_append _ _), List.drop_left, hliteral]
      exact if_pos rfl
    · cases h

/-- **Which values a query denotes**: those without NUL that denote themselves. -/
theorem denoted_iff {select : Select} (hselect : select.WellFormed) {value : Str} :
    select.denoted (select.sql value) = .ok value ↔ 0 ∉ value ∧ Sql.Verbatim value := by
  rw [denoted_iff_values, ← sql_statement,
    Sql.values_sql_iff (statement_wellFormed hselect) [value] rfl, List.forall_mem_singleton]

end LightSearch
