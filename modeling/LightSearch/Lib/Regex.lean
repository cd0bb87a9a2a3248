import LightSearch.Lib.Decimal

/-!
# Regular expressions

`std::regex` with the grammar of ECMAScript, over bytes and in the C locale. `compile` reads a pattern,
and `new` is the constructor, which throws when there is none. `ends` is the backtracking match, as the list of its
successes in the order of preference, and `replace` is `regex_replace`, which goes through the matches
as `std::regex_iterator` does.

A `]` or `}` that closes nothing stands for itself, as in all implementations. At most one quantifier
stands behind an atom, as in the grammar; libstdc++ reads more of them (`1**`, `1++`), which is a pattern
there and none here. Collating elements `[.x.]` and equivalence classes `[=x=]` are only read when they have
one character.

A pattern of plain characters compiles, and matches itself (`compile_plain`).
-/

set_option autoImplicit false

open Cxx

/-- What a pattern stands for. -/
inductive Regex where
  /-- The empty pattern. -/
  | empty
  /-- One character that passes a test. -/
  | one (test : UInt8 → Bool)
  | lineBegin
  | lineEnd
  /-- `\b`, or `\B`. -/
  | boundary (holds : Bool)
  /-- `(?=r)`, or `(?!r)`. -/
  | ahead (holds : Bool) (r : Regex)
  /-- `(r)`, with its number. -/
  | group (n : Nat) (r : Regex)
  /-- What a group matched, once more. -/
  | again (n : Nat)
  | seq (r t : Regex)
  | alt (r t : Regex)
  /-- At least `least` times and at most `most` times, the most or the fewest preferred. -/
  | times (greedy : Bool) (least : Nat) (most : Option Nat) (r : Regex)

namespace Regex

/-- The byte of the backslash. -/
abbrev backslash : UInt8 := 92

/-! ## Matching -/

/-- A place in the text that a match reached, and where the groups matched, the latest first. -/
structure Place where
  pos : Nat
  groups : List (Nat × Nat × Nat)

def Place.moved (p : Place) (pos : Nat) : Place := { p with pos := pos }

/-- Where a group matched. -/
def Place.span (p : Place) (n : Nat) : Option (Nat × Nat) :=
  (p.groups.find? fun g => g.1 = n).map Prod.snd

/-- The part of a text between two places. -/
def part (text : Str) (start stop : Nat) : Str := (text.drop start).take (stop - start)

/-- The groups in a pattern. -/
def groups : Regex → List Nat
  | empty | one _ | lineBegin | lineEnd | boundary _ | again _ => []
  | ahead _ r | times _ _ _ r => r.groups
  | group n r => n :: r.groups
  | seq r t | alt r t => r.groups ++ t.groups

/-- The groups that a pattern refers to. -/
def references : Regex → List Nat
  | empty | one _ | lineBegin | lineEnd | boundary _ => []
  | again n => [n]
  | ahead _ r | times _ _ _ r | group _ r => r.references
  | seq r t | alt r t => r.references ++ t.references

def isWordChar (ch : UInt8) : Bool := isalnum ch || ch = '_'.toUInt8

/-- Whether a word begins or ends at a place. -/
def atBoundary (text : Str) (pos : Nat) : Bool :=
  let before := pos ≠ 0 && isWordChar (text.getD (pos - 1) 0)
  before != isWordChar (text.getD pos 0)

/-- So many matches, one behind the other. -/
def exactly (step : Place → List Place) : Nat → Place → List Place
  | 0, p => [p]
  | n + 1, p => (step p).flatMap (exactly step n)

/-- Up to so many matches, one behind the other, none of them empty. -/
def upTo (greedy : Bool) (step : Place → List Place) : Nat → Place → List Place
  | 0, p => [p]
  | n + 1, p =>
    let more := ((step p).filter fun q => p.pos < q.pos).flatMap (upTo greedy step n)
    if greedy then more ++ [p] else p :: more

/-- Where the matches of a pattern from a place end, the preferred one first. -/
def ends (text : Str) : Regex → Place → List Place
  | empty, p => [p]
  | one test, p =>
    match text[p.pos]? with
    | some ch => if test ch then [p.moved (p.pos + 1)] else []
    | none => []
  | lineBegin, p => if p.pos = 0 then [p] else []
  | lineEnd, p => if p.pos = text.length then [p] else []
  | boundary holds, p => if atBoundary text p.pos = holds then [p] else []
  | ahead holds r, p =>
    match ends text r p with
    | [] => if holds then [] else [p]
    | q :: _ => if holds then [q.moved p.pos] else []
  | group n r, p =>
    (ends text r p).map fun q => { q with groups := (n, p.pos, q.pos) :: q.groups }
  | again n, p =>
    match p.span n with
    | some (start, stop) =>
      if (part text start stop).isPrefixOf (text.drop p.pos) then
        [p.moved (p.pos + (stop - start))]
      else []
    | none => [p]
  | seq r t, p => (ends text r p).flatMap (ends text t)
  | alt r t, p => ends text r p ++ ends text t p
  | times greedy least most r, p =>
    -- a further match forgets the groups of the one before
    let step := fun q : Place =>
      ends text r { q with groups := q.groups.filter fun g => g.1 ∉ r.groups }
    -- an optional match takes a character, so the length bounds their number
    let further := match most with
      | some most => min (most - least) text.length
      | none => text.length
    (exactly step least p).flatMap (upTo greedy step further)

/-- The first match from a place on: where it starts, and where it ends. -/
def search (text : Str) (r : Regex) (start : Nat) : Option (Nat × Place) :=
  (List.range' start (text.length + 1 - start)).findSome? fun pos =>
    (ends text r ⟨pos, []⟩).head?.map fun p => (pos, p)

/-- The matches of `std::regex_iterator` from a place on. Behind an empty match comes one that is not
empty and starts at the same place, if there is one. A text has at most twice as many matches as
characters, and one more. -/
def iterate (text : Str) (r : Regex) : Nat → Nat → Bool → List (Nat × Place)
  | 0, _, _ => []
  | fuel + 1, pos, wasEmpty =>
    let here :=
      if wasEmpty then
        ((ends text r ⟨pos, []⟩).find? fun p => pos < p.pos).map fun p => (pos, p)
      else none
    match here <|> search text r (if wasEmpty then pos + 1 else pos) with
    | none => []
    | some (start, p) => (start, p) :: iterate text r fuel p.pos (start = p.pos)

/-- `match_results::format`: what a format stands for, in which `$` and the next characters may refer
to the match, its groups, and the text around it. -/
def format (matched : Nat → Str) (before after : Str) : Str → Str
  | [] => []
  | [ch] => [ch]
  | ch :: next :: fmt =>
    if ch ≠ '$'.toUInt8 then ch :: format matched before after (next :: fmt)
    else if next = '$'.toUInt8 then ch :: format matched before after fmt
    else if next = '&'.toUInt8 then matched 0 ++ format matched before after fmt
    else if next = 96 then before ++ format matched before after fmt
    else if next = 39 then after ++ format matched before after fmt
    else if isdigit next then
      match fmt with
      | digit :: fmt =>
        if isdigit digit then
          matched (digitsValue [next, digit]) ++ format matched before after fmt
        else matched (digitsValue [next]) ++ format matched before after (digit :: fmt)
      | [] => matched (digitsValue [next])
    else ch :: format matched before after (next :: fmt)

/-- A text from a place on, with its matches replaced. -/
def replaceFrom (text fmt : Str) : Nat → List (Nat × Place) → Str
  | pos, [] => text.drop pos
  | pos, (start, p) :: rest =>
    let matched (n : Nat) : Str :=
      if n = 0 then part text start p.pos
      else ((p.span n).map fun g => part text g.1 g.2).getD []
    part text pos start ++
      format matched (part text pos start) (text.drop p.pos) fmt ++ replaceFrom text fmt p.pos rest

/-- `regex_replace`. -/
def replace (text : Str) (r : Regex) (fmt : Str) : Str :=
  replaceFrom text fmt 0 (iterate text r (2 * text.length + 1) 0 false)

/-! ## Reading a pattern -/

/-- What a backslash and the characters behind it stand for. -/
inductive Escape where
  | char (ch : UInt8)
  | set (test : UInt8 → Bool)
  | boundary (holds : Bool)
  | group (n : Nat)

/-- The value of a hexadecimal digit. -/
def hexDigit (ch : UInt8) : Option Nat :=
  if isdigit ch then some (ch.toNat - 48)
  else if 97 ≤ tolower ch ∧ tolower ch ≤ 102 then some ((tolower ch).toNat - 87)
  else none

/-- The character with a code of so many hexadecimal digits. -/
def hexChar (n : Nat) (s : Str) : Option (Escape × Str) :=
  if n ≤ s.length then
    ((s.take n).mapM hexDigit).map fun digits =>
      (.char (UInt8.ofNat (digits.foldl (fun value digit => 16 * value + digit) 0)), s.drop n)
  else none

/-- The escape behind a backslash, in brackets or not. -/
def escape (bracket : Bool) : Str → Option (Escape × Str)
  | [] => none
  | ch :: s =>
    if ch = 'd'.toUInt8 then some (.set isdigit, s)
    else if ch = 'D'.toUInt8 then some (.set fun c => !isdigit c, s)
    else if ch = 's'.toUInt8 then some (.set isspace, s)
    else if ch = 'S'.toUInt8 then some (.set fun c => !isspace c, s)
    else if ch = 'w'.toUInt8 then some (.set isWordChar, s)
    else if ch = 'W'.toUInt8 then some (.set fun c => !isWordChar c, s)
    else if ch = 'b'.toUInt8 then some (if bracket then .char 8 else .boundary true, s)
    else if ch = 'B'.toUInt8 then if bracket then none else some (.boundary false, s)
    else if ch = 'f'.toUInt8 then some (.char 12, s)
    else if ch = 'n'.toUInt8 then some (.char 10, s)
    else if ch = 'r'.toUInt8 then some (.char 13, s)
    else if ch = 't'.toUInt8 then some (.char 9, s)
    else if ch = 'v'.toUInt8 then some (.char 11, s)
    else if ch = '0'.toUInt8 then some (.char 0, s)
    else if ch = 'c'.toUInt8 then
      match s with
      | letter :: s => if isalpha letter then some (.char (letter % 32), s) else none
      | [] => none
    else if ch = 'x'.toUInt8 then hexChar 2 s
    else if ch = 'u'.toUInt8 then hexChar 4 s
    else if isdigit ch then
      if bracket then none
      else some (.group (digitsValue (ch :: s)), s.dropWhile isdigit)
    else some (.char ch, s)

/-- The classes with a name. -/
def classNamed (name : Str) : Option (UInt8 → Bool) :=
  if name = lit "alnum" then some isalnum
  else if name = lit "alpha" then some isalpha
  else if name = lit "blank" then some fun ch => ch = 9 || ch = 32
  else if name = lit "cntrl" then some fun ch => ch < 32 || ch = 127
  else if name = lit "digit" ∨ name = lit "d" then some isdigit
  else if name = lit "graph" then some fun ch => 33 ≤ ch && ch ≤ 126
  else if name = lit "lower" then some islower
  else if name = lit "print" then some fun ch => 32 ≤ ch && ch ≤ 126
  else if name = lit "punct" then some ispunct
  else if name = lit "space" ∨ name = lit "s" then some isspace
  else if name = lit "upper" then some isupper
  else if name = lit "w" then some isWordChar
  else if name = lit "xdigit" then some fun ch => (hexDigit ch).isSome
  else none

/-- A character in brackets, or a class. -/
inductive Atom where
  | char (ch : UInt8)
  | set (test : UInt8 → Bool)

def Atom.test : Atom → UInt8 → Bool
  | .char ch => fun c => c = ch
  | .set test => test

/-- The text of a class up to its mark and the closing bracket, and what follows. -/
def untilClose (mark : UInt8) : Str → Option (Str × Str)
  | ch :: next :: s =>
    if ch = mark ∧ next = ']'.toUInt8 then some ([], s)
    else (untilClose mark (next :: s)).map fun r => (ch :: r.1, r.2)
  | _ => none

/-- One atom in brackets. -/
def bracketAtom : Str → Option (Atom × Str)
  | [] => none
  | [ch] => if ch = backslash then none else some (.char ch, [])
  | ch :: next :: s =>
    if ch = backslash then do
      let (e, s) ← escape true (next :: s)
      match e with
      | .char ch => some (.char ch, s)
      | .set test => some (.set test, s)
      | _ => none
    else if ch = '['.toUInt8 ∧ next = ':'.toUInt8 then do
      let (name, s) ← untilClose next s
      let test ← classNamed (name.map tolower)
      some (.set test, s)
    else if ch = '['.toUInt8 ∧ (next = '.'.toUInt8 ∨ next = '='.toUInt8) then do
      let (name, s) ← untilClose next s
      match name with
      | [ch] => some (.char ch, s)
      | _ => none
    else some (.char ch, next :: s)

/-- The atoms up to the closing bracket, with what was in the brackets before. -/
def bracketFrom : Nat → (UInt8 → Bool) → Str → Option ((UInt8 → Bool) × Str)
  | 0, _, _ => none
  | _ + 1, _, [] => none
  | fuel + 1, test, ch :: s =>
    if ch = ']'.toUInt8 then some (test, s)
    else do
      let (atom, s) ← bracketAtom (ch :: s)
      match s with
      | dash :: next :: rest =>
        if dash = '-'.toUInt8 ∧ next ≠ ']'.toUInt8 then do
          let (last, rest) ← bracketAtom (next :: rest)
          match atom, last with
          | .char low, .char high =>
            if low ≤ high then
              bracketFrom fuel (fun c => test c || (low ≤ c && c ≤ high)) rest
            else none
          | _, _ => none
        else bracketFrom fuel (fun c => test c || atom.test c) s
      | _ => bracketFrom fuel (fun c => test c || atom.test c) s

/-- What is in brackets, from behind the opening one. -/
def bracket (s : Str) : Option ((UInt8 → Bool) × Str) :=
  match s with
  | ch :: rest =>
    if ch = '^'.toUInt8 then
      (bracketFrom (s.length + 1) (fun _ => false) rest).map fun r => (fun c => !r.1 c, r.2)
    else bracketFrom (s.length + 1) (fun _ => false) s
  | [] => none

/-- The numbers in braces, from behind the opening one. -/
def interval (s : Str) : Option (Nat × Option Nat × Str) :=
  let rest := s.dropWhile isdigit
  if (s.takeWhile isdigit).isEmpty then none
  else
    match rest with
    | ch :: after =>
      if ch = 125 then some (digitsValue s, some (digitsValue s), after)
      else if ch = ','.toUInt8 then
        match after.dropWhile isdigit with
        | close :: behind =>
          if close ≠ 125 then none
          else if (after.takeWhile isdigit).isEmpty then some (digitsValue s, none, behind)
          else if digitsValue s ≤ digitsValue after then
            some (digitsValue s, some (digitsValue after), behind)
          else none
        | [] => none
      else none
    | [] => none

/-- A pattern that repeats another one if a quantifier follows it. A second quantifier is not read. -/
def quantified (r : Regex) (s : Str) : Option (Regex × Str) := do
  let lazily (least : Nat) (most : Option Nat) (s : Str) : Regex × Str :=
    match s with
    | ch :: rest => if ch = '?'.toUInt8 then (times false least most r, rest) else (times true least most r, s)
    | [] => (times true least most r, [])
  match s with
  | [] => some (r, [])
  | ch :: rest =>
    if ch = '*'.toUInt8 then some (lazily 0 none rest)
    else if ch = '+'.toUInt8 then some (lazily 1 none rest)
    else if ch = '?'.toUInt8 then some (lazily 0 (some 1) rest)
    else if ch = 123 then do
      let (least, most, rest) ← interval rest
      some (lazily least most rest)
    else some (r, s)

/-- A reader of patterns: from a text and the number of groups so far to the pattern, the text behind
it, and the number of groups. -/
abbrev Reader := Str → Nat → Option (Regex × Str × Nat)

/-- What is in parentheses, from behind the opening one, with the closing one. -/
def closed (inner : Reader) (s : Str) (n : Nat) : Option (Regex × Str × Nat) := do
  let (r, s, n) ← inner s n
  match s with
  | ch :: s => if ch = ')'.toUInt8 then some (r, s, n) else none
  | [] => none

/-- The parentheses from behind the opening one: a group, a plain parenthesis, or a look ahead, which
no quantifier follows. -/
def parenthesis (inner : Reader) (s : Str) (n : Nat) : Option (Regex × Str × Nat) := do
  let grouped := do
    let (r, s, n') ← closed inner s (n + 1)
    let (r, s) ← quantified (group (n + 1) r) s
    some (r, s, n')
  match s with
  | question :: mark :: rest =>
    if question ≠ '?'.toUInt8 then grouped
    else if mark = ':'.toUInt8 then do
      let (r, s, n) ← closed inner rest n
      let (r, s) ← quantified r s
      some (r, s, n)
    else if mark = '='.toUInt8 then do
      let (r, s, n) ← closed inner rest n
      some (ahead true r, s, n)
    else if mark = '!'.toUInt8 then do
      let (r, s, n) ← closed inner rest n
      some (ahead false r, s, n)
    else none
  | _ => grouped

/-- A character that stands for itself. -/
def Plain (ch : UInt8) : Prop :=
  ch ∉ lit "^$\\.*+?()[\x7b|"

instance (ch : UInt8) : Decidable (Plain ch) := inferInstanceAs (Decidable (¬ _))

/-- One term: the first character, and the text behind it. -/
def term (inner : Reader) (ch : UInt8) (s : Str) (n : Nat) : Option (Regex × Str × Nat) :=
  if Plain ch then do
    let (r, s) ← quantified (one fun c => c = ch) s
    some (r, s, n)
  else if ch = '^'.toUInt8 then some (lineBegin, s, n)
  else if ch = '$'.toUInt8 then some (lineEnd, s, n)
  else if ch = '.'.toUInt8 then do
    let (r, s) ← quantified (one fun c => c ≠ 10 && c ≠ 13) s
    some (r, s, n)
  else if ch = '('.toUInt8 then parenthesis inner s n
  else if ch = '['.toUInt8 then do
    let (test, s) ← bracket s
    let (r, s) ← quantified (one test) s
    some (r, s, n)
  else if ch = backslash then do
    let (e, s) ← escape false s
    match e with
    | .boundary holds => some (boundary holds, s, n)
    | .char ch => do
      let (r, s) ← quantified (one fun c => c = ch) s
      some (r, s, n)
    | .set test => do
      let (r, s) ← quantified (one test) s
      some (r, s, n)
    | .group k => do
      let (r, s) ← quantified (again k) s
      some (r, s, n)
  else none

/-- The terms up to a bar, a closing parenthesis, or the end. -/
def alternative (inner : Reader) : Nat → Reader
  | 0, _, _ => none
  | _ + 1, [], n => some (empty, [], n)
  | fuel + 1, ch :: s, n =>
    if ch = '|'.toUInt8 ∨ ch = ')'.toUInt8 then some (empty, ch :: s, n)
    else do
      let (r, s, n) ← term inner ch s n
      let (t, s, n) ← alternative inner fuel s n
      some (seq r t, s, n)

/-- The alternatives up to a closing parenthesis, or the end. -/
def disjunction : Nat → Reader
  | 0, _, _ => none
  | fuel + 1, s, n => do
    let (r, s, n) ← alternative (disjunction fuel) fuel s n
    match s with
    | ch :: rest =>
      if ch = '|'.toUInt8 then do
        let (t, s, n) ← disjunction fuel rest n
        some (alt r t, s, n)
      else some (r, ch :: rest, n)
    | [] => some (r, [], n)

/-- The pattern that a text stands for, if it stands for one. Each term and each parenthesis takes a
character of the pattern, which bounds how deep they go. -/
def compile (pattern : Str) : Option Regex := do
  let (r, s, n) ← disjunction (pattern.length + 2) pattern 0
  if s = [] ∧ ∀ k ∈ r.references, 0 < k ∧ k ≤ n then some r else none

/-- `std::regex e(pattern)` in a program: a pattern that does not compile throws. -/
def new (pattern : Str) : Except Fault Regex :=
  match compile pattern with
  | some e => .ok e
  | none => .error (.thrown (lit "std::regex_error"))

/-- A text that stands for a pattern. -/
def Compiles (pattern : Str) : Prop := (compile pattern).isSome = true

instance (pattern : Str) : Decidable (Compiles pattern) := inferInstanceAs (Decidable (_ = true))

theorem new_exists_ok {pattern : Str} : (∃ e, new pattern = .ok e) ↔ Compiles pattern := by
  unfold new Compiles
  cases compile pattern with
  | none => exact iff_of_false (fun ⟨_, h⟩ => nomatch h) (fun h => nomatch h)
  | some e => exact iff_of_true ⟨e, rfl⟩ rfl

/-! ## Plain patterns -/

/-- The pattern of a text that stands for itself. -/
def literally : Str → Regex
  | [] => empty
  | ch :: s => seq (one fun c => c = ch) (literally s)

theorem references_literally (s : Str) : (literally s).references = [] := by
  induction s with
  | nil => rfl
  | cons ch s ih => exact ih

theorem plain_ne : ∀ {ch : UInt8}, Plain ch → ch ≠ '*'.toUInt8 ∧ ch ≠ '+'.toUInt8 ∧
    ch ≠ '?'.toUInt8 ∧ ch ≠ 123 ∧ ch ≠ '|'.toUInt8 ∧ ch ≠ ')'.toUInt8 :=
  @(forall_byte (by decide +kernel))

/-- A plain character is no quantifier. -/
theorem quantified_plain (r : Regex) {s : Str} (h : ∀ ch ∈ s, Plain ch) :
    quantified r s = some (r, s) := by
  cases s with
  | nil => rfl
  | cons ch s =>
    obtain ⟨hstar, hplus, hquestion, hbrace, -, -⟩ := plain_ne (h ch List.mem_cons_self)
    simp only [quantified, if_neg hstar, if_neg hplus, if_neg hquestion, if_neg hbrace]

theorem alternative_plain (inner : Reader) {s : Str} (h : ∀ ch ∈ s, Plain ch) {fuel : Nat}
    (hfuel : s.length < fuel) (n : Nat) :
    alternative inner fuel s n = some (literally s, [], n) := by
  induction s generalizing fuel with
  | nil =>
    cases fuel with
    | zero => exact absurd hfuel (Nat.not_lt_zero _)
    | succ fuel => rfl
  | cons ch s ih =>
    cases fuel with
    | zero => exact absurd hfuel (Nat.not_lt_zero _)
    | succ fuel =>
      have hch := h ch List.mem_cons_self
      have hs : ∀ c ∈ s, Plain c := fun c hc => h c (List.mem_cons_of_mem _ hc)
      obtain ⟨-, -, -, -, hbar, hclose⟩ := plain_ne hch
      have hterm : term inner ch s n = some (one fun c => c = ch, s, n) := by
        unfold term
        rw [if_pos hch, quantified_plain _ hs]
        rfl
      rw [alternative, if_neg (not_or.mpr ⟨hbar, hclose⟩), hterm]
      dsimp only [Option.bind_eq_bind, Option.bind_some]
      rw [ih hs (Nat.lt_of_succ_lt_succ hfuel)]
      rfl

/-- **A plain pattern compiles**, and stands for itself. -/
theorem compile_plain {s : Str} (h : ∀ ch ∈ s, Plain ch) : compile s = some (literally s) := by
  have hread : disjunction (s.length + 2) s 0 = some (literally s, [], 0) := by
    rw [disjunction, alternative_plain _ h (Nat.lt_succ_self _)]
    rfl
  unfold compile
  rw [hread]
  dsimp only [Option.bind_eq_bind, Option.bind_some]
  rw [references_literally]
  exact if_pos ⟨rfl, fun k hk => absurd hk List.not_mem_nil⟩

theorem compiles_of_plain {s : Str} (h : ∀ ch ∈ s, Plain ch) : Compiles s := by
  unfold Compiles
  rw [compile_plain h]
  rfl

end Regex
