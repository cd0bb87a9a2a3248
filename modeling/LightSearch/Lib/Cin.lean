import LightSearch.Lib.Decimal
import Mathlib.Algebra.Ring.Int.Defs

/-!
# The standard input

A stream with its state. `getline` and `>>` behave differently when the input ends: `getline` leaves
its string as it was when the stream is not good any more, and `>>` leaves its variable.

`readUntil` is the loop that reads a value with `>>`, drops the rest of the line, and asks again until
the value is valid. `choice` is the value that a line has for it, and `readUntil_after` says that the
loop finds the first line with a valid value, or the end of the input.
-/

set_option autoImplicit false

universe u

namespace Cxx

/-! ## Lines of a text -/

/-- A text is empty, or a line without its end, or a line and more text. -/
theorem lines_cases (s : Str) :
    s = [] ∨ (s ≠ [] ∧ newline ∉ s ∧ getlines s = [s]) ∨
      ∃ line more, newline ∉ line ∧ s = line ++ newline :: more := by
  induction s with
  | nil => exact .inl rfl
  | cons ch s ih =>
    by_cases hch : ch = newline
    · exact .inr (.inr ⟨[], s, List.not_mem_nil, by rw [hch]; rfl⟩)
    · have hnot : ∀ {t : Str}, newline ∉ t → newline ∉ ch :: t := fun ht hmem =>
        (List.mem_cons.mp hmem).elim (fun h => hch h.symm) ht
      rcases ih with rfl | ⟨hne, hclean, hlines⟩ | ⟨line, more, hclean, rfl⟩
      · refine .inr (.inl ⟨List.cons_ne_nil _ _, hnot List.not_mem_nil, ?_⟩)
        rw [getlines, if_neg hch]
        rfl
      · refine .inr (.inl ⟨List.cons_ne_nil _ _, hnot hclean, ?_⟩)
        rw [getlines, if_neg hch, hlines]
      · exact .inr (.inr ⟨ch :: line, more, hnot hclean, rfl⟩)

theorem length_getlines_le (s : Str) : (getlines s).length ≤ s.length := by
  induction s with
  | nil => exact Nat.le_refl 0
  | cons ch s ih =>
    rw [getlines]
    split
    · exact Nat.succ_le_succ ih
    · cases hlines : getlines s with
      | nil => exact Nat.succ_le_succ (Nat.zero_le _)
      | cons line rest =>
        rw [hlines] at ih
        exact Nat.le_succ_of_le ih

theorem takeWhile_line {line : Str} (clean : newline ∉ line) (more : Str) :
    (line ++ newline :: more).takeWhile (· ≠ newline) = line := by
  have hline : ∀ ch ∈ line, decide (ch ≠ newline) = true := fun ch hch =>
    decide_eq_true fun h => clean (h ▸ hch)
  rw [List.takeWhile_append_of_pos hline, List.takeWhile_cons_of_neg (by decide), List.append_nil]

theorem dropWhile_line {line : Str} (clean : newline ∉ line) (more : Str) :
    (line ++ newline :: more).dropWhile (· ≠ newline) = newline :: more := by
  have hline : ∀ ch ∈ line, decide (ch ≠ newline) = true := fun ch hch =>
    decide_eq_true fun h => clean (h ▸ hch)
  rw [List.dropWhile_append_of_pos hline, List.dropWhile_cons_of_neg (by decide)]

/-! ## The stream -/

/-- `std::cin`: what is left of the input, and its state. -/
structure Cin where
  rest : Str
  eof : Bool
  fail : Bool

namespace Cin

def good (c : Cin) : Bool := !c.eof && !c.fail

/-- `getline(cin, str)`. -/
def getline (c : Cin) (str : Str) : Cin × Str :=
  if c.good then
    if newline ∈ c.rest then
      (⟨(c.rest.dropWhile (· ≠ newline)).drop 1, false, false⟩, c.rest.takeWhile (· ≠ newline))
    else (⟨[], true, decide (c.rest = [])⟩, c.rest)
  else ({ c with fail := true }, str)

/-- `cin.clear()`, and `cin.ignore` up to the end of the line. -/
def skipLine (c : Cin) : Cin :=
  ⟨(c.rest.dropWhile (· ≠ newline)).drop 1, decide (newline ∉ c.rest), false⟩

variable {α : Type u}

/-- `cin >> a`: white space is skipped, and `scan` reads what comes then. -/
def extractBy (scan : Str → Cin × α) (c : Cin) (a : α) : Cin × α :=
  if c.good then
    match c.rest.dropWhile isspace with
    | [] => (⟨[], true, true⟩, a)
    | ch :: s => scan (ch :: s)
  else ({ c with fail := true }, a)

/-- A number behind its sign. -/
def unsigned (s : Str) : Str := if s.head? = some 45 ∨ s.head? = some 43 then s.tail else s

/-- The value of a number, with its sign. -/
def signedValue (s : Str) : Int :=
  if s.head? = some 45 then - (digitsValue (unsigned s) : Int) else digitsValue (unsigned s)

/-- What `>>` stores for an `int`, and whether it fails: 0 if there is no number, and the nearest `int`
if the number is none. -/
def storedInt (s : Str) : Bool × Int :=
  if (unsigned s).takeWhile isdigit = [] then (true, 0)
  else if signedValue s < - 2 ^ 31 then (true, - 2 ^ 31)
  else if 2 ^ 31 ≤ signedValue s then (true, 2 ^ 31 - 1)
  else (false, signedValue s)

/-- What `>>` reads for an `int`: the sign and the digits. -/
def scanInt (s : Str) : Cin × Int :=
  let rest := (unsigned s).dropWhile isdigit
  (⟨rest, decide (rest = []), (storedInt s).1⟩, (storedInt s).2)

/-- What `>>` reads for a `char`. -/
def scanChar (s : Str) : Cin × UInt8 := (⟨s.tail, false, false⟩, s.headD 0)

/-- The loop that asks again until the value is valid. -/
def readUntil (scan : Str → Cin × α) (valid : α → Bool) : Nat → Cin → α → Cin × α
  | 0, c, a => (c, a)
  | fuel + 1, c, a =>
    let (c, a) := c.extractBy scan a
    if c.eof then (c, a)
    else if c.fail then readUntil scan valid fuel c.skipLine a
    else if !valid a then readUntil scan valid fuel c.skipLine a
    else (c.skipLine, a)

/-! ## Line by line -/

/-- The lines that are still to be read; none is when the stream has come to the end. -/
def After (c : Cin) (lines : List Str) : Prop :=
  (c.eof = false ∧ c.fail = false ∧ getlines c.rest = lines) ∨
    (c.eof = true ∧ c.rest = [] ∧ lines = [])

/-- What a `scan` reads of a line does not depend on what follows the line. -/
structure Local (scan : Str → Cin × α) : Prop where
  line : ∀ {s : Str} (more : Str), s ≠ [] → newline ∉ s → scan (s ++ newline :: more) =
    (⟨(scan s).1.rest ++ newline :: more, false, (scan s).1.fail⟩, (scan s).2)
  clean : ∀ {s : Str}, newline ∉ s → newline ∉ (scan s).1.rest
  eof : ∀ {s : Str}, (scan s).1.eof = true → (scan s).1.rest = []

/-- The valid value of a line. -/
def choice (scan : Str → Cin × α) (valid : α → Bool) (line : Str) : Option α :=
  match line.dropWhile isspace with
  | [] => none
  | ch :: s =>
    if !(scan (ch :: s)).1.fail && valid (scan (ch :: s)).2 then some (scan (ch :: s)).2 else none

/-- The first value among the lines, and the lines behind it. -/
def firstChoice (choose : Str → Option α) : List Str → Option (α × List Str)
  | [] => none
  | line :: lines =>
    match choose line with
    | some a => some (a, lines)
    | none => firstChoice choose lines

theorem good_of {c : Cin} (heof : c.eof = false) (hfail : c.fail = false) : c.good = true := by
  unfold good
  rw [heof, hfail]
  rfl

theorem not_good_of {c : Cin} (heof : c.eof = true) : ¬ c.good = true := by
  unfold good
  rw [heof]
  exact Bool.false_ne_true

theorem after_skipLine {rest : Str} (clean : newline ∉ rest) (more : Str) (eof fail : Bool) :
    (Cin.skipLine ⟨rest ++ newline :: more, eof, fail⟩).After (getlines more) := by
  refine .inl ⟨?_, rfl, ?_⟩
  · exact decide_eq_false fun h => h (List.mem_append_right _ List.mem_cons_self)
  · unfold skipLine
    dsimp only
    rw [dropWhile_line clean]
    rfl

/-- Behind a line without its end there is nothing. -/
theorem after_skipLine_end {rest : Str} (clean : newline ∉ rest) (eof fail : Bool) :
    (Cin.skipLine ⟨rest, eof, fail⟩).After [] := by
  refine .inr ⟨decide_eq_true clean, ?_, rfl⟩
  have hall : rest.dropWhile (· ≠ newline) = [] :=
    List.dropWhile_eq_nil_iff.mpr fun ch hch => decide_eq_true fun h => clean (h ▸ hch)
  unfold skipLine
  dsimp only
  rw [hall]
  rfl

/-- **`getline` reads a line**, whether it has its end or not. -/
theorem getline_after {c : Cin} {line : Str} {lines : List Str} (hc : c.After (line :: lines))
    (str : Str) : (c.getline str).1.After lines ∧ (c.getline str).2 = line := by
  obtain ⟨heof, hfail, hlines⟩ := hc.resolve_right fun h => List.cons_ne_nil _ _ h.2.2
  unfold getline
  rw [if_pos (good_of heof hfail)]
  rcases lines_cases c.rest with hrest | ⟨hne, hclean, hlast⟩ | ⟨line', more, hclean, hrest⟩
  · rw [hrest] at hlines
    cases hlines
  · obtain ⟨hline, rfl⟩ := List.cons.inj (hlast.symm.trans hlines)
    rw [if_neg hclean]
    exact ⟨.inr ⟨rfl, rfl, rfl⟩, hline⟩
  · rw [hrest, getlines_append_newline hclean] at hlines
    obtain ⟨rfl, rfl⟩ := List.cons.inj hlines
    rw [hrest, if_pos (List.mem_append_right _ List.mem_cons_self), takeWhile_line hclean,
      dropWhile_line hclean]
    exact ⟨.inl ⟨rfl, rfl, rfl⟩, rfl⟩

/-- When no line is to be read, nothing is left. -/
theorem After.rest_eq_nil {c : Cin} (hc : c.After []) : c.rest = [] := by
  rcases hc with ⟨-, -, hlines⟩ | ⟨-, hrest, -⟩
  · rcases lines_cases c.rest with hrest | ⟨-, -, hlast⟩ | ⟨line, more, hclean, hrest⟩
    · exact hrest
    · cases hlast.symm.trans hlines
    · rw [hrest, getlines_append_newline hclean] at hlines
      cases hlines
  · exact hrest

/-- At the end `getline` gives the empty string once, and then leaves the string as it is. -/
theorem getline_end {c : Cin} (hc : c.After []) (str : Str) :
    (c.getline str).1.After [] ∧ ((c.getline str).2 = [] ∨ (c.getline str).2 = str) := by
  unfold getline
  have hrest := hc.rest_eq_nil
  rcases hc with ⟨heof, hfail, -⟩ | ⟨heof, -, -⟩
  · rw [if_pos (good_of heof hfail), hrest, if_neg List.not_mem_nil]
    exact ⟨.inr ⟨rfl, rfl, rfl⟩, .inl rfl⟩
  · rw [if_neg (not_good_of heof)]
    exact ⟨.inr ⟨heof, hrest, rfl⟩, .inr rfl⟩

/-- At the end `>>` leaves the variable as it is. -/
theorem extractBy_end (scan : Str → Cin × α) {c : Cin} (hc : c.After []) (a : α) :
    (c.extractBy scan a).1.eof = true ∧ (c.extractBy scan a).1.rest = [] ∧
      (c.extractBy scan a).2 = a := by
  have hrest := hc.rest_eq_nil
  unfold extractBy
  rcases hc with ⟨heof, hfail, -⟩ | ⟨heof, -, -⟩
  · rw [if_pos (good_of heof hfail), hrest]
    exact ⟨rfl, rfl, rfl⟩
  · rw [if_neg (not_good_of heof)]
    exact ⟨heof, hrest, rfl⟩

theorem extractBy_good (scan : Str → Cin × α) {rest : Str} (hrest : rest.dropWhile isspace ≠ [])
    (a : α) : extractBy scan ⟨rest, false, false⟩ a = scan (rest.dropWhile isspace) := by
  unfold extractBy
  rw [if_pos (good_of rfl rfl)]
  dsimp only
  cases h : rest.dropWhile isspace with
  | nil => exact absurd h hrest
  | cons ch s => rfl

/-- A blank line is skipped with its end. -/
theorem dropWhile_blank_line {line : Str} (hblank : line.dropWhile isspace = []) (more : Str) :
    (line ++ newline :: more).dropWhile isspace = more.dropWhile isspace := by
  rw [List.dropWhile_append_of_pos (List.dropWhile_eq_nil_iff.mp hblank),
    List.dropWhile_cons_of_pos (by decide)]

theorem dropWhile_word_line {line : Str} (hword : line.dropWhile isspace ≠ []) (more : Str) :
    (line ++ newline :: more).dropWhile isspace = line.dropWhile isspace ++ newline :: more := by
  rw [List.dropWhile_append, if_neg]
  rw [List.isEmpty_iff]
  exact hword

theorem choice_of_blank {scan : Str → Cin × α} {valid : α → Bool} {line : Str}
    (hblank : line.dropWhile isspace = []) : choice scan valid line = none := by
  unfold choice
  rw [hblank]

theorem choice_of_word {scan : Str → Cin × α} {valid : α → Bool} {line : Str}
    (hword : line.dropWhile isspace ≠ []) :
    choice scan valid line =
      if !(scan (line.dropWhile isspace)).1.fail && valid (scan (line.dropWhile isspace)).2 then
        some (scan (line.dropWhile isspace)).2
      else none := by
  unfold choice
  cases h : line.dropWhile isspace with
  | nil => exact absurd h hword
  | cons ch s => rfl

/-! ## The loop -/

/-- What the loop does with what it read. -/
theorem readUntil_succ (scan : Str → Cin × α) (valid : α → Bool) (fuel : Nat) (c : Cin) (a : α) :
    readUntil scan valid (fuel + 1) c a =
      if (c.extractBy scan a).1.eof then c.extractBy scan a
      else if (c.extractBy scan a).1.fail then
        readUntil scan valid fuel (c.extractBy scan a).1.skipLine (c.extractBy scan a).2
      else if !valid (c.extractBy scan a).2 then
        readUntil scan valid fuel (c.extractBy scan a).1.skipLine (c.extractBy scan a).2
      else ((c.extractBy scan a).1.skipLine, (c.extractBy scan a).2) := rfl

/-- A blank line is as if it were not there. -/
theorem readUntil_blank (scan : Str → Cin × α) (valid : α → Bool) (fuel : Nat) {line : Str}
    (hblank : line.dropWhile isspace = []) (more : Str) (a : α) :
    readUntil scan valid (fuel + 1) ⟨line ++ newline :: more, false, false⟩ a =
      readUntil scan valid (fuel + 1) ⟨more, false, false⟩ a := by
  have hextract : extractBy scan ⟨line ++ newline :: more, false, false⟩ a =
      extractBy scan ⟨more, false, false⟩ a := by
    unfold extractBy
    rw [if_pos (good_of rfl rfl), if_pos (good_of rfl rfl), dropWhile_blank_line hblank]
  rw [readUntil_succ, readUntil_succ, hextract]

theorem not_mem_dropWhile {p : UInt8 → Bool} {line : Str} (clean : newline ∉ line) :
    newline ∉ line.dropWhile p :=
  fun h => clean ((List.dropWhile_sublist p).subset h)

/-- What the loop comes to: the first valid value and the lines behind it, or the end. -/
def Finds (result : Cin × α) : Option (α × List Str) → Prop
  | none => result.1.After []
  | some (v, more) => result.1.After more ∧ result.2 = v

/-- A line with a word is asked for its value once. -/
theorem finds_word {scan : Str → Cin × α} {valid : α → Bool} {line : Str} {lines : List Str}
    (hword : line.dropWhile isspace ≠ []) {fuel : Nat} {c : Cin} (hskip : c.After lines)
    (hagain : Finds (readUntil scan valid fuel c (scan (line.dropWhile isspace)).2)
      (firstChoice (choice scan valid) lines)) :
    Finds
      (if (scan (line.dropWhile isspace)).1.fail then
        readUntil scan valid fuel c (scan (line.dropWhile isspace)).2
      else if !valid (scan (line.dropWhile isspace)).2 then
        readUntil scan valid fuel c (scan (line.dropWhile isspace)).2
      else (c, (scan (line.dropWhile isspace)).2))
      (firstChoice (choice scan valid) (line :: lines)) := by
  rw [firstChoice, choice_of_word hword]
  cases (scan (line.dropWhile isspace)).1.fail with
  | true => exact hagain
  | false =>
    cases valid (scan (line.dropWhile isspace)).2 with
    | true => exact ⟨hskip, rfl⟩
    | false => exact hagain

/-- **The loop finds the first line with a valid value**, or the end of the input. -/
theorem readUntil_after {scan : Str → Cin × α} (hscan : Local scan) (valid : α → Bool)
    {lines : List Str} {fuel : Nat} {c : Cin} (hc : c.After lines) (hfuel : lines.length < fuel)
    (a : α) :
    Finds (readUntil scan valid fuel c a) (firstChoice (choice scan valid) lines) := by
  induction lines generalizing c fuel a with
  | nil =>
    obtain ⟨fuel, rfl⟩ := Nat.exists_eq_succ_of_ne_zero (Nat.ne_of_gt hfuel)
    obtain ⟨heof, hrest, -⟩ := extractBy_end scan hc a
    rw [readUntil_succ, if_pos heof]
    exact .inr ⟨heof, hrest, rfl⟩
  | cons line lines ih =>
    obtain ⟨fuel, rfl⟩ := Nat.exists_eq_succ_of_ne_zero (Nat.ne_of_gt (Nat.zero_lt_of_lt hfuel))
    have hless : lines.length < fuel := Nat.lt_of_succ_lt_succ hfuel
    obtain ⟨heof, hfail, hlines⟩ := hc.resolve_right fun h => List.cons_ne_nil _ _ h.2.2
    obtain ⟨rest, eof, fail⟩ := c
    obtain rfl : eof = false := heof
    obtain rfl : fail = false := hfail
    rcases lines_cases rest with rfl | ⟨-, hclean, hlast⟩ | ⟨line', more, hclean, rfl⟩
    · cases hlines
    · -- the last line, without its end
      obtain ⟨rfl, rfl⟩ := List.cons.inj (hlast.symm.trans hlines)
      by_cases hword : rest.dropWhile isspace = []
      · have hend : extractBy scan ⟨rest, false, false⟩ a = (⟨[], true, true⟩, a) := by
          unfold extractBy
          rw [if_pos (good_of rfl rfl), hword]
        rw [firstChoice, choice_of_blank hword, readUntil_succ, hend]
        exact .inr ⟨rfl, rfl, rfl⟩
      · rw [readUntil_succ, extractBy_good scan hword]
        by_cases hstop : (scan (rest.dropWhile isspace)).1.eof = true
        · have hend : (scan (rest.dropWhile isspace)).1.After [] :=
            .inr ⟨hstop, hscan.eof hstop, rfl⟩
          rw [if_pos hstop, firstChoice, choice_of_word hword]
          by_cases hok : (!(scan (rest.dropWhile isspace)).1.fail &&
              valid (scan (rest.dropWhile isspace)).2) = true
          · rw [if_pos hok]
            exact ⟨hend, rfl⟩
          · rw [if_neg hok]
            exact hend
        · have hskip := after_skipLine_end (hscan.clean (not_mem_dropWhile (p := isspace) hclean))
            (scan (rest.dropWhile isspace)).1.eof (scan (rest.dropWhile isspace)).1.fail
          rw [if_neg hstop]
          exact finds_word hword hskip (ih hskip hless _)
    · rw [getlines_append_newline hclean] at hlines
      obtain ⟨rfl, rfl⟩ := List.cons.inj hlines
      by_cases hword : line'.dropWhile isspace = []
      · rw [firstChoice, choice_of_blank hword, readUntil_blank scan valid fuel hword]
        exact ih (.inl ⟨rfl, rfl, rfl⟩) (Nat.lt_succ_of_lt hless) a
      · have hline := hscan.line more hword (not_mem_dropWhile hclean)
        have hne : (line' ++ newline :: more).dropWhile isspace ≠ [] := by
          rw [dropWhile_word_line hword]
          exact List.append_ne_nil_of_left_ne_nil hword _
        have hskip := after_skipLine (hscan.clean (not_mem_dropWhile (p := isspace) hclean)) more
          false (scan (line'.dropWhile isspace)).1.fail
        rw [readUntil_succ, extractBy_good scan hne, dropWhile_word_line hword, hline,
          if_neg Bool.false_ne_true]
        exact finds_word hword hskip (ih hskip hless _)

/-- The lines behind a first value are fewer, and one before them has the value. -/
theorem firstChoice_eq_some {choose : Str → Option α} {lines more : List Str} {a : α}
    (h : firstChoice choose lines = some (a, more)) :
    more.length < lines.length ∧ ∃ line, choose line = some a := by
  induction lines with
  | nil => cases h
  | cons line lines ih =>
    rw [firstChoice] at h
    cases hchoose : choose line with
    | none =>
      rw [hchoose] at h
      obtain ⟨hless, hline⟩ := ih h
      exact ⟨Nat.lt_succ_of_lt hless, hline⟩
    | some b =>
      rw [hchoose] at h
      obtain ⟨rfl, rfl⟩ := Prod.mk.inj (Option.some.inj h)
      exact ⟨Nat.lt_succ_self _, line, hchoose⟩

theorem valid_of_choice {scan : Str → Cin × α} {valid : α → Bool} {line : Str} {a : α}
    (h : choice scan valid line = some a) : valid a = true := by
  unfold choice at h
  split at h
  · cases h
  · split at h
    · next hok => exact Option.some.inj h ▸ (Bool.and_eq_true_iff.mp hok).2
    · cases h

theorem After.getlines_rest {c : Cin} {lines : List Str} (hc : c.After lines) :
    getlines c.rest = lines := by
  rcases hc with ⟨-, -, hlines⟩ | ⟨-, hrest, rfl⟩
  · exact hlines
  · rw [hrest]
    rfl

/-- There are no more lines than bytes. -/
theorem After.length_lt {c : Cin} {lines : List Str} (hc : c.After lines) :
    lines.length < c.rest.length + 1 :=
  Nat.lt_succ_of_le (hc.getlines_rest ▸ length_getlines_le c.rest)

/-- The loop never goes back. -/
theorem readUntil_le {scan : Str → Cin × α} (hscan : Local scan) (valid : α → Bool)
    {lines : List Str} {c : Cin} (hc : c.After lines) (a : α) :
    ∃ more, (readUntil scan valid (c.rest.length + 1) c a).1.After more ∧
      more.length ≤ lines.length := by
  have hfinds := readUntil_after hscan valid hc hc.length_lt a
  cases hchoice : firstChoice (choice scan valid) lines with
  | none =>
    rw [hchoice] at hfinds
    exact ⟨[], hfinds, Nat.zero_le _⟩
  | some found =>
    rw [hchoice] at hfinds
    exact ⟨found.2, hfinds.1, Nat.le_of_lt (firstChoice_eq_some hchoice).1⟩

/-! ## What is read of a line -/

theorem local_scanChar : Local scanChar where
  line := by
    intro s more hne hclean
    obtain ⟨ch, s, rfl⟩ := List.exists_cons_of_ne_nil hne
    rfl
  clean hclean hmem := hclean (List.mem_of_mem_tail hmem)
  eof h := nomatch h

theorem takeWhile_digits (s more : Str) :
    (s ++ newline :: more).takeWhile isdigit = s.takeWhile isdigit := by
  induction s with
  | nil => rfl
  | cons ch s ih =>
    rw [List.cons_append, List.takeWhile_cons, List.takeWhile_cons, ih]

theorem dropWhile_digits (s more : Str) :
    (s ++ newline :: more).dropWhile isdigit = s.dropWhile isdigit ++ newline :: more := by
  induction s with
  | nil => rfl
  | cons ch s ih =>
    rw [List.cons_append, List.dropWhile_cons, List.dropWhile_cons, ih]
    split
    · rfl
    · rfl

theorem unsigned_append {s : Str} (hne : s ≠ []) (more : Str) :
    unsigned (s ++ more) = unsigned s ++ more := by
  obtain ⟨ch, s, rfl⟩ := List.exists_cons_of_ne_nil hne
  unfold unsigned
  rw [List.cons_append, List.head?_cons, List.head?_cons, List.tail_cons, List.tail_cons]
  split
  · rfl
  · rfl

theorem storedInt_append {s : Str} (hne : s ≠ []) (more : Str) :
    storedInt (s ++ newline :: more) = storedInt s := by
  have hhead : (s ++ newline :: more).head? = s.head? := by
    obtain ⟨ch, s, rfl⟩ := List.exists_cons_of_ne_nil hne
    rfl
  unfold storedInt signedValue digitsValue
  rw [hhead, unsigned_append hne, takeWhile_digits]

theorem local_scanInt : Local scanInt where
  line := by
    intro s more hne hclean
    have hends : (unsigned s).dropWhile isdigit ++ newline :: more ≠ [] :=
      List.append_ne_nil_of_right_ne_nil _ (List.cons_ne_nil _ _)
    unfold scanInt
    rw [storedInt_append hne, unsigned_append hne, dropWhile_digits]
    dsimp only
    rw [decide_eq_false hends]
  clean := by
    intro s hclean hmem
    have hsub : newline ∈ unsigned s := (List.dropWhile_sublist isdigit).subset hmem
    unfold unsigned at hsub
    split at hsub
    · exact hclean (List.mem_of_mem_tail hsub)
    · exact hclean hsub
  eof h := of_decide_eq_true h

end Cin

end Cxx
