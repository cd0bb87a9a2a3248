import LightSearch.Lib.Cxx

/-!
# String literals of MySQL

Inside single quotes, two quotes stand for one, and a backslash changes what the next character
stands for (the default SQL mode). `literal` reads a literal from behind its opening quote. A text
without quotes and backslashes is read as it is (`literal_plain`); a text that is put between quotes
without escaping may denote something else, or may not end (`literal_open`).

A statement is a text with literals at fixed places (`Statement`). With unescaped values put in, it is
read as that statement with exactly these values when each of them is `Verbatim` (`values_sql_iff`):
what a literal denotes is never longer than how it is written, so no value can run over its quote and
another one make up for it.
-/

set_option autoImplicit false

namespace Sql

open Cxx

/-- The byte of the single quote. -/
abbrev quote : UInt8 := 39

/-- The byte of the backslash. -/
abbrev backslash : UInt8 := 92

/-- What a backslash and the next character stand for. -/
def unescape (ch : UInt8) : Str :=
  if ch = 48 then [0]
  else if ch = 98 then [8]
  else if ch = 110 then [10]
  else if ch = 114 then [13]
  else if ch = 116 then [9]
  else if ch = 90 then [26]
  else if ch = 37 ∨ ch = 95 then [backslash, ch]
  else [ch]

/-- Read a literal from behind its opening quote: its value, and the text behind its closing quote.
There is none when the literal does not end. -/
def literal : Str → Option (Str × Str)
  | [] => none
  | [ch] => if ch = quote then some ([], []) else none
  | ch :: next :: s =>
    if ch = quote then
      if next = quote then (literal s).map fun r => (quote :: r.1, r.2)
      else some ([], next :: s)
    else if ch = backslash then (literal s).map fun r => (unescape next ++ r.1, r.2)
    else (literal (next :: s)).map fun r => (ch :: r.1, r.2)

/-- A character that stands for itself in a literal. -/
def Plain (ch : UInt8) : Prop := ch ≠ quote ∧ ch ≠ backslash

instance (ch : UInt8) : Decidable (Plain ch) := inferInstanceAs (Decidable (_ ∧ _))

theorem literal_cons {ch : UInt8} (h : Plain ch) (s : Str) :
    literal (ch :: s) = (literal s).map fun r => (ch :: r.1, r.2) := by
  cases s with
  | nil => exact if_neg h.1
  | cons next s => rw [literal, if_neg h.1, if_neg h.2]

/-- **A plain text between quotes denotes itself**, when no further quote follows. -/
theorem literal_plain {value : Str} (h : ∀ ch ∈ value, Plain ch) {after : Str}
    (hafter : after.head? ≠ some quote) : literal (value ++ quote :: after) = some (value, after) := by
  induction value with
  | nil =>
    cases after with
    | nil => rfl
    | cons next after =>
      have hnext : next ≠ quote := fun heq => hafter (heq ▸ rfl)
      rw [List.nil_append, literal, if_pos rfl, if_neg hnext]
  | cons ch value ih =>
    rw [List.cons_append, literal_cons (h ch List.mem_cons_self),
      ih fun ch' hch' => h ch' (List.mem_cons_of_mem _ hch')]
    rfl

/-- A literal without a closing quote does not end. -/
theorem literal_open {s : Str} (h : ∀ ch ∈ s, Plain ch) : literal s = none := by
  induction s with
  | nil => rfl
  | cons ch s ih =>
    rw [literal_cons (h ch List.mem_cons_self), ih fun ch' hch' => h ch' (List.mem_cons_of_mem _ hch')]
    rfl

/-! ## Texts that denote themselves -/

/-- A text that denotes itself between quotes: no quote is in it, and a backslash only before `%` or
`_`, which keep it. -/
def Verbatim : Str → Prop
  | [] => True
  | ch :: s => ch ≠ quote ∧ (ch = backslash → s.head? = some 37 ∨ s.head? = some 95) ∧ Verbatim s

instance decidableVerbatim : (s : Str) → Decidable (Verbatim s)
  | [] => inferInstanceAs (Decidable True)
  | _ :: s =>
    have := decidableVerbatim s
    inferInstanceAs (Decidable (_ ∧ _ ∧ _))

/-- Plain characters denote themselves. -/
theorem verbatim_plain {s : Str} (h : ∀ ch ∈ s, Plain ch) : Verbatim s := by
  induction s with
  | nil => trivial
  | cons ch s ih =>
    have hch := h ch List.mem_cons_self
    exact ⟨hch.1, fun heq => absurd heq hch.2, ih fun ch' hch' => h ch' (List.mem_cons_of_mem _ hch')⟩

/-- An underscore follows each backslash. -/
def Underscored (s : Str) : Prop :=
  ∀ before after, s = before ++ backslash :: after → after.head? = some 95

/-- A text without quotes and without `%` denotes itself when an underscore follows each backslash. -/
theorem verbatim_iff {s : Str} (h : ∀ ch ∈ s, ch ≠ quote ∧ ch ≠ 37) : Verbatim s ↔ Underscored s := by
  unfold Underscored
  induction s with
  | nil => exact iff_of_true trivial fun before after heq => by simp at heq
  | cons ch s ih =>
    have hrest : ∀ ch' ∈ s, ch' ≠ quote ∧ ch' ≠ 37 := fun ch' hch' => h ch' (List.mem_cons_of_mem _ hch')
    have hpercent : s.head? ≠ some 37 := fun heq => (hrest 37 (List.mem_of_mem_head? heq)).2 rfl
    rw [Verbatim, ih hrest]
    constructor
    · rintro ⟨-, hbackslash, hall⟩ before after heq
      cases before with
      | nil =>
        obtain ⟨rfl, rfl⟩ := List.cons.inj heq
        exact (hbackslash rfl).resolve_left hpercent
      | cons b before => exact hall before after (List.cons.inj heq).2
    · intro hall
      refine ⟨(h ch List.mem_cons_self).1, fun heq => .inr (hall [] s (by rw [heq]; rfl)), ?_⟩
      exact fun before after heq => hall (ch :: before) after (by rw [heq]; rfl)

theorem literal_verbatim {value : Str} (h : Verbatim value) {after : Str}
    (hafter : after.head? ≠ some quote) : literal (value ++ quote :: after) = some (value, after) := by
  induction hn : value.length using Nat.strongRecOn generalizing value with
  | ind n ih =>
    match value, h with
    | [], _ => exact literal_plain (fun _ hmem => absurd hmem List.not_mem_nil) hafter
    | ch :: value, ⟨hquote, hbackslash, hrest⟩ =>
      by_cases hch : ch = backslash
      · -- the backslash and the character behind it are kept
        obtain ⟨next, rest, rfl, hnext⟩ : ∃ next rest, value = next :: rest ∧ (next = 37 ∨ next = 95) := by
          cases value with
          | nil => simp at hbackslash; exact absurd hch hbackslash
          | cons next rest => exact ⟨next, rest, rfl, by simpa using hbackslash hch⟩
        have hunescape : unescape next = [backslash, next] := by
          rcases hnext with rfl | rfl <;> rfl
        have hread := ih rest.length (by rw [← hn, List.length_cons, List.length_cons]; omega)
          hrest.2.2 rfl
        subst hch
        rw [List.cons_append, List.cons_append, literal, if_neg (by decide), if_pos rfl, hread,
          hunescape]
        rfl
      · rw [List.cons_append, literal_cons ⟨hquote, hch⟩,
          ih value.length (by rw [← hn]; exact Nat.lt_succ_self _) hrest rfl]
        rfl

theorem length_unescape (ch : UInt8) :
    (unescape ch).length = 1 ∨ (ch = 37 ∨ ch = 95) ∧ unescape ch = [backslash, ch] := by
  unfold unescape
  split_ifs with _ _ _ _ _ _ h
  · exact .inl rfl
  · exact .inl rfl
  · exact .inl rfl
  · exact .inl rfl
  · exact .inl rfl
  · exact .inl rfl
  · exact .inr ⟨h, rfl⟩
  · exact .inl rfl

/-- **What a literal denotes is not longer than how it is written**, and as long only if it is what is
written. -/
theorem literal_length {s value rest : Str} (h : literal s = some (value, rest)) :
    value.length + 1 + rest.length ≤ s.length ∧
      (value.length + 1 + rest.length = s.length → s = value ++ quote :: rest ∧ Verbatim value) := by
  fun_induction literal s generalizing value with
  | case1 => cases h
  | case2 =>
    obtain ⟨rfl, rfl⟩ := Prod.mk.inj (Option.some.inj h)
    exact ⟨Nat.le_refl _, fun _ => ⟨rfl, trivial⟩⟩
  | case3 => cases h
  | case4 s ih =>
    -- two quotes denote one
    obtain ⟨r, hr, heq⟩ := Option.map_eq_some_iff.mp h
    obtain ⟨rfl, rfl⟩ := Prod.mk.inj heq
    obtain ⟨hle, -⟩ := ih hr
    simp only [List.length_cons] at hle ⊢
    exact ⟨by omega, by omega⟩
  | case5 next s hnext =>
    obtain ⟨rfl, rfl⟩ := Prod.mk.inj (Option.some.inj h)
    simp only [List.length_cons, List.length_nil]
    exact ⟨by omega, fun _ => ⟨rfl, trivial⟩⟩
  | case6 next s hquote ih =>
    obtain ⟨r, hr, heq⟩ := Option.map_eq_some_iff.mp h
    obtain ⟨rfl, rfl⟩ := Prod.mk.inj heq
    obtain ⟨hle, hexact⟩ := ih hr
    rcases length_unescape next with hone | ⟨hnext, htwo⟩
    · simp only [List.length_cons, List.length_append, hone] at hle ⊢
      exact ⟨by omega, by omega⟩
    · simp only [htwo, List.length_cons, List.cons_append, List.nil_append] at hle ⊢
      refine ⟨by omega, fun hlen => ?_⟩
      obtain ⟨rfl, hverbatim⟩ := hexact (by omega)
      refine ⟨rfl, by decide, fun _ => ?_, ?_, ?_, hverbatim⟩
      · rcases hnext with rfl | rfl
        · exact .inl rfl
        · exact .inr rfl
      · rcases hnext with rfl | rfl <;> decide
      · rintro rfl
        exact absurd hnext (by decide)
  | case7 ch next s hquote hbackslash ih =>
    obtain ⟨r, hr, heq⟩ := Option.map_eq_some_iff.mp h
    obtain ⟨rfl, rfl⟩ := Prod.mk.inj heq
    obtain ⟨hle, hexact⟩ := ih hr
    simp only [List.length_cons] at hle ⊢
    refine ⟨by omega, fun hlen => ?_⟩
    obtain ⟨hs, hverbatim⟩ := hexact (by simp only [List.length_cons]; omega)
    exact ⟨by rw [hs]; rfl, hquote, fun heq => absurd heq hbackslash, hverbatim⟩

/-! ## Statements -/

/-- A statement with literals: its text before the first opening quote, and behind each closing one. -/
structure Statement where
  before : Str
  afters : List Str

/-- The literals with the texts behind them. -/
def fill : List Str → List Str → Str
  | after :: afters, value :: values => quote :: (value ++ quote :: (after ++ fill afters values))
  | _, _ => []

/-- The text of a statement with values put between its quotes. -/
def Statement.sql (statement : Statement) (values : List Str) : Str :=
  statement.before ++ fill statement.afters values

/-- Read the literals in front of these texts, up to the end. -/
def literals : List Str → Str → Option (List Str)
  | [], s => if s = [] then some [] else none
  | _ :: _, [] => none
  | after :: afters, ch :: s =>
    if ch = quote then do
      let (value, rest) ← literal s
      if after.isPrefixOf rest then do
        let values ← literals afters (rest.drop after.length)
        some (value :: values)
      else none
    else none

/-- The values that the literals of a text denote, when the text is the statement. -/
def Statement.values (statement : Statement) (text : Str) : Option (List Str) :=
  if statement.before.isPrefixOf text then
    literals statement.afters (text.drop statement.before.length)
  else none

/-- No quote follows a closing quote. -/
def Apart : List Str → Prop
  | [] => True
  | after :: afters => after.head? ≠ some quote ∧ (after = [] → afters = []) ∧ Apart afters

/-- One literal up to the end. -/
theorem literals_singleton {after s value : Str} :
    literals [after] s = some [value] ↔ ∃ t, s = quote :: t ∧ literal t = some (value, after) := by
  cases s with
  | nil => exact iff_of_false (fun h => nomatch h) (fun ⟨_, h, _⟩ => nomatch h)
  | cons ch s =>
    rw [literals]
    constructor
    · intro h
      split at h
      · next hquote =>
        obtain ⟨⟨v, rest⟩, hliteral, h⟩ := Option.bind_eq_some_iff.mp h
        dsimp only at h
        split at h
        · next hafter =>
          obtain ⟨more, hmore, heq⟩ := Option.bind_eq_some_iff.mp h
          obtain ⟨rfl, rfl⟩ := List.cons.inj (Option.some.inj heq)
          rw [literals] at hmore
          split at hmore
          · next hdrop =>
            refine ⟨s, by rw [hquote], ?_⟩
            rw [hliteral, eq_append_of_isPrefixOf hafter, hdrop, List.append_nil]
          · cases hmore
        · cases h
      · cases h
    · rintro ⟨t, heq, hliteral⟩
      obtain ⟨rfl, rfl⟩ := List.cons.inj heq
      have hafter : after.isPrefixOf after = true := by simp
      rw [if_pos rfl, hliteral]
      dsimp only [Option.bind_eq_bind, Option.bind_some]
      rw [if_pos hafter, List.drop_length]
      rfl

/-- What is read is not longer than the text, and as long only if it is the text. -/
theorem literals_length {afters values : List Str} {s : Str} (h : literals afters s = some values) :
    (fill afters values).length ≤ s.length ∧
      ((fill afters values).length = s.length →
        s = fill afters values ∧ ∀ value ∈ values, Verbatim value) := by
  induction afters generalizing s values with
  | nil =>
    rw [literals] at h
    split at h
    · next hs =>
      obtain rfl := Option.some.inj h
      exact ⟨Nat.zero_le _, fun _ => ⟨hs, fun _ hmem => absurd hmem List.not_mem_nil⟩⟩
    · cases h
  | cons after afters ih =>
    cases s with
    | nil => cases h
    | cons ch s =>
      rw [literals] at h
      split at h
      · next hquote =>
        obtain ⟨⟨value, rest⟩, hliteral, h⟩ := Option.bind_eq_some_iff.mp h
        dsimp only at h
        split at h
        · next hafter =>
          obtain ⟨more, hmore, heq⟩ := Option.bind_eq_some_iff.mp h
          obtain rfl := Option.some.inj heq
          obtain ⟨hle, hexact⟩ := literal_length hliteral
          obtain ⟨hle', hexact'⟩ := ih hmore
          have hrest := eq_append_of_isPrefixOf hafter
          have hlen := congrArg List.length hrest
          simp only [fill, List.length_append, List.length_cons] at hlen ⊢
          refine ⟨by omega, fun htotal => ?_⟩
          obtain ⟨hs, hvalue⟩ := hexact (by omega)
          obtain ⟨hrest', hvalues⟩ := hexact' (by omega)
          refine ⟨?_, List.forall_mem_cons.mpr ⟨hvalue, hvalues⟩⟩
          rw [hquote, hs, ← hrest', ← hrest]
        · cases h
      · cases h

/-- Texts that denote themselves are read as they are. -/
theorem literals_fill {afters values : List Str} (hapart : Apart afters)
    (hlen : values.length = afters.length) (h : ∀ value ∈ values, Verbatim value) :
    literals afters (fill afters values) = some values := by
  induction afters generalizing values with
  | nil =>
    obtain rfl := List.length_eq_zero_iff.mp hlen
    rfl
  | cons after afters ih =>
    obtain ⟨hhead, hlast, hapart⟩ := hapart
    cases values with
    | nil => cases hlen
    | cons value values =>
      have hnext : (after ++ fill afters values).head? ≠ some quote := by
        cases after with
        | nil =>
          rw [hlast rfl]
          exact fun heq => nomatch heq
        | cons a after => exact hhead
      have hrest := ih hapart (Nat.succ.inj hlen) fun v hv => h v (List.mem_cons_of_mem _ hv)
      rw [fill, literals, if_pos rfl, literal_verbatim (h value List.mem_cons_self) hnext]
      dsimp only [Option.bind_eq_bind, Option.bind_some]
      rw [if_pos (isPrefixOf_append _ _), List.drop_left, hrest]
      rfl

/-- A statement whose own text has no NUL, and no quote behind a literal. -/
structure Statement.WellFormed (statement : Statement) : Prop where
  before : 0 ∉ statement.before
  afters : ∀ after ∈ statement.afters, 0 ∉ after
  apart : Apart statement.afters

theorem mem_fill {afters values : List Str} {ch : UInt8} (hlen : values.length = afters.length) :
    ch ∈ fill afters values ↔
      (∃ value ∈ values, ch ∈ value) ∨ (∃ after ∈ afters, ch ∈ after) ∨ ch = quote ∧ afters ≠ [] := by
  induction afters generalizing values with
  | nil =>
    obtain rfl := List.length_eq_zero_iff.mp hlen
    simp [fill]
  | cons after afters ih =>
    cases values with
    | nil => cases hlen
    | cons value values =>
      simp only [fill, List.mem_cons, List.mem_append, ih (Nat.succ.inj hlen), exists_eq_or_imp,
        ne_eq, reduceCtorEq, not_false_eq_true, and_true]
      constructor
      · rintro (h | h | h | h | h | h | h)
        · exact .inr (.inr h)
        · exact .inl (.inl h)
        · exact .inr (.inr h)
        · exact .inr (.inl (.inl h))
        · exact .inl (.inr h)
        · exact .inr (.inl (.inr h))
        · exact .inr (.inr h.1)
      · rintro ((h | h) | (h | h) | h)
        · exact .inr (.inl h)
        · exact .inr (.inr (.inr (.inr (.inl h))))
        · exact .inr (.inr (.inr (.inl h)))
        · exact .inr (.inr (.inr (.inr (.inr (.inl h)))))
        · exact .inl h

/-- The text of a statement has no NUL when its values have none. -/
theorem Statement.WellFormed.clean {statement : Statement} (h : statement.WellFormed)
    {values : List Str} (hlen : values.length = statement.afters.length)
    (hvalues : ∀ value ∈ values, 0 ∉ value) : 0 ∉ statement.sql values := by
  unfold Statement.sql
  rw [List.mem_append, mem_fill hlen]
  rintro (hzero | ⟨value, hvalue, hzero⟩ | ⟨after, hafter, hzero⟩ | ⟨hzero, -⟩)
  · exact h.before hzero
  · exact hvalues value hvalue hzero
  · exact h.afters after hafter hzero
  · exact absurd hzero (by decide)

/-- **Which values a statement denotes.** A statement with values put in, sent as a C string, is read
as the statement with these values exactly when each value has no NUL and denotes itself. -/
theorem values_sql_iff {statement : Statement} (h : statement.WellFormed) (values : List Str)
    (hlen : values.length = statement.afters.length) :
    statement.values (cstr (statement.sql values)) = some values ↔
      ∀ value ∈ values, 0 ∉ value ∧ Verbatim value := by
  constructor
  · intro hread
    unfold Statement.values at hread
    split at hread
    · next hbefore =>
      -- the text that is read is as long as the statement, so nothing was cut off
      have hsplit := eq_append_of_isPrefixOf hbefore
      obtain ⟨hle, hexact⟩ := literals_length hread
      have hcut : (cstr (statement.sql values)).length ≤ (statement.sql values).length :=
        (List.takeWhile_sublist _).length_le
      have htext := congrArg List.length hsplit
      have hsql : (statement.sql values).length =
          statement.before.length + (fill statement.afters values).length := List.length_append
      rw [List.length_append] at htext
      obtain ⟨hfill, hverbatim⟩ := hexact (by omega)
      have hsame : cstr (statement.sql values) = statement.sql values := by
        rw [hsplit, hfill]
        rfl
      intro value hvalue
      refine ⟨fun hzero => ?_, hverbatim value hvalue⟩
      apply zero_not_mem_cstr (statement.sql values)
      rw [hsame]
      exact List.mem_append_right _ ((mem_fill hlen).mpr (.inl ⟨value, hvalue, hzero⟩))
    · cases hread
  · intro hvalues
    have hclean := h.clean hlen fun value hvalue => (hvalues value hvalue).1
    rw [cstr_of_not_mem hclean, Statement.values, Statement.sql,
      if_pos (isPrefixOf_append _ _), List.drop_left]
    exact literals_fill h.apart hlen fun value hvalue => (hvalues value hvalue).2

end Sql
