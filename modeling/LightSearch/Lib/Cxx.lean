import Mathlib.Data.List.TakeWhile

/-!
# C++ strings and input streams

A `std::string` is its bytes, and a text stream is the bytes still to be read. The two ways a
program reads a stream are `std::getline`, which cuts at newlines, and `operator>>` into a string,
which skips white space and cuts before the next white space. Both are given here as the whole
sequence of strings that successive reads return (`getlines`, `words`): `extract` is one `>>`, and
`words_of_extract` says that `words` is its iteration.

The laws are the ones a text format needs: a line that was written is read back as it was
(`getlines_append_newline`), a word that was written before a white space is read back as it was
(`words_append_space`), and whatever is read is a non-empty string without white space
(`words_clean`).

Character classes are those of the C locale, where no byte above 127 belongs to any class.
-/

set_option autoImplicit false

namespace Cxx

/-- A `std::string`: its bytes. -/
abbrev Str := List UInt8

/-- Whether a string is in a container. -/
instance decidableMem (s : Str) (l : List Str) : Decidable (s ∈ l) := inferInstance

/-- Whether something holds of all the bytes of a string: only these are looked at, not all the
bytes there are. -/
instance decidableAll (s : Str) (P : UInt8 → Prop) [DecidablePred P] : Decidable (∀ ch ∈ s, P ch) :=
  List.decidableBAll P s

/-- The bytes of a string literal; the source files are UTF-8. -/
def lit (s : String) : Str := s.toList.flatMap String.utf8EncodeChar

/-- What ends a C++ program other than by returning: undefined behaviour it runs into, or an
exception that nobody catches. -/
inductive Fault where
  /-- An iterator is used that refers to no element of its container. -/
  | danglingIterator
  /-- A null pointer is dereferenced. -/
  | nullPointer
  /-- A `std::out_of_range` is thrown. -/
  | outOfRange
  /-- A library throws an exception of its own. -/
  | thrown (what : Str)
  deriving DecidableEq

/-- What holds of each of the 256 bytes holds of every byte. -/
theorem forall_byte {P : UInt8 → Prop} (h : ∀ n : Fin 256, P (UInt8.ofFin n)) (ch : UInt8) : P ch :=
  h ch.toFin

/-! ## Character classes of the C locale -/

/-- The byte `\n`. -/
abbrev newline : UInt8 := 10

/-- The byte of the blank. -/
abbrev blank : UInt8 := 32

/-- `isspace`: blank, tab, newline, vertical tab, form feed, carriage return. -/
def isspace (ch : UInt8) : Bool := ch = blank || (9 ≤ ch && ch ≤ 13)

def isupper (ch : UInt8) : Bool := 65 ≤ ch && ch ≤ 90

def islower (ch : UInt8) : Bool := 97 ≤ ch && ch ≤ 122

def isalpha (ch : UInt8) : Bool := isupper ch || islower ch

def isdigit (ch : UInt8) : Bool := 48 ≤ ch && ch ≤ 57

def isalnum (ch : UInt8) : Bool := isalpha ch || isdigit ch

/-- `ispunct`: the printing characters that are neither blank nor alphanumeric. -/
def ispunct (ch : UInt8) : Bool := 33 ≤ ch && ch ≤ 126 && !isalnum ch

def tolower (ch : UInt8) : UInt8 := if isupper ch then ch + 32 else ch

/-- A digit is no white space. -/
theorem isspace_of_isdigit : ∀ {ch : UInt8}, isdigit ch = true → isspace ch = false :=
  @(forall_byte (by decide +kernel))

/-- `s.c_str()` used as a string: it ends at the first NUL. -/
def cstr (s : Str) : Str := s.takeWhile fun ch => ch ≠ 0

theorem isPrefixOf_append (l rest : Str) : l.isPrefixOf (l ++ rest) = true :=
  List.isPrefixOf_iff_prefix.mpr (List.prefix_append l rest)

theorem eq_append_of_isPrefixOf {l s : Str} (h : l.isPrefixOf s = true) :
    s = l ++ s.drop l.length := by
  obtain ⟨t, rfl⟩ := List.isPrefixOf_iff_prefix.mp h
  rw [List.drop_left]

theorem cstr_of_not_mem {s : Str} (clean : 0 ∉ s) : cstr s = s := by
  refine List.takeWhile_eq_self_iff.mpr ?_
  intro ch hch
  exact decide_eq_true fun h => clean (h ▸ hch)

theorem zero_not_mem_cstr (s : Str) : 0 ∉ cstr s := by
  intro h
  simpa using List.mem_takeWhile_imp h

theorem cstr_append_zero {s : Str} (clean : 0 ∉ s) (rest : Str) : cstr (s ++ 0 :: rest) = s := by
  have hs : ∀ ch ∈ s, decide (ch ≠ 0) = true := fun ch hch => decide_eq_true fun h => clean (h ▸ hch)
  unfold cstr
  rw [List.takeWhile_append_of_pos hs]
  exact List.append_nil s

/-- `str[idx]`: behind the last character stands a NUL, and behind that nothing. -/
def charAt (str : Str) (idx : Nat) : Except Fault UInt8 :=
  if idx ≤ str.length then .ok (str.getD idx 0) else .error .danglingIterator

/-- `str.substr(pos, len)`. -/
def substr (str : Str) (pos len : Nat) : Except Fault Str :=
  if pos ≤ str.length then .ok ((str.drop pos).take len) else .error .outOfRange

/-- `str.find(s)`: where `s` occurs first. -/
def find (s : Str) : Str → Option Nat
  | [] => if s = [] then some 0 else none
  | ch :: str => if s.isPrefixOf (ch :: str) then some 0 else (find s str).map (· + 1)

theorem find_le {s str : Str} {pos : Nat} (h : find s str = some pos) : pos ≤ str.length := by
  induction str generalizing pos with
  | nil =>
    unfold find at h
    split at h
    · exact Nat.le_of_eq (Option.some.inj h).symm
    · cases h
  | cons ch str ih =>
    unfold find at h
    split at h
    · rw [← Option.some.inj h]
      exact Nat.zero_le _
    · obtain ⟨pos', hpos, rfl⟩ := Option.map_eq_some_iff.mp h
      exact Nat.succ_le_succ (ih hpos)

/-- Where `find` finds a string, it stands. -/
theorem find_front {s str : Str} {pos : Nat} (h : find s str = some pos) : s <+: str.drop pos := by
  induction str generalizing pos with
  | nil =>
    unfold find at h
    split at h
    next hs => simp [hs]
    next => cases h
  | cons ch str ih =>
    unfold find at h
    split at h
    next hfront =>
      rw [← Option.some.inj h]
      exact List.isPrefixOf_iff_prefix.mp hfront
    next =>
      obtain ⟨pos', hpos, rfl⟩ := Option.map_eq_some_iff.mp h
      exact ih hpos

/-- `find` finds nothing exactly when the string occurs nowhere. -/
theorem find_eq_none_iff {s str : Str} : find s str = none ↔ ¬ s <:+: str := by
  induction str with
  | nil =>
    unfold find
    simp
  | cons ch str ih =>
    unfold find
    rw [List.infix_cons_iff, ← List.isPrefixOf_iff_prefix]
    by_cases hfront : s.isPrefixOf (ch :: str) = true
    · simp [hfront]
    · simp [hfront, ih]

/-- A string without `c` is found before a `c` or behind it. -/
theorem find_append_cons {s : Str} {c : UInt8} (hne : s ≠ []) (hc : c ∉ s) (k rest : Str) :
    find s (k ++ c :: rest) =
      match find s k with
      | some pos => some pos
      | none => (find s rest).map (· + (k.length + 1)) := by
  induction k with
  | nil =>
    have hfront : ¬ s.isPrefixOf (c :: rest) = true := by
      intro h
      cases s with
      | nil => exact hne rfl
      | cons ch s =>
        obtain ⟨rfl, -⟩ := List.cons_prefix_cons.mp (List.isPrefixOf_iff_prefix.mp h)
        exact hc List.mem_cons_self
    simp [find, hne, hfront]
  | cons ch k ih =>
    have hfront : s.isPrefixOf (ch :: (k ++ c :: rest)) = s.isPrefixOf (ch :: k) := by
      rw [Bool.eq_iff_iff, List.isPrefixOf_iff_prefix, List.isPrefixOf_iff_prefix]
      refine ⟨fun h => ?_, fun h => h.trans (List.prefix_append (ch :: k) (c :: rest))⟩
      obtain ⟨t, ht⟩ := h
      have ht' : s ++ t = (ch :: k) ++ (c :: rest) := ht
      rcases List.append_eq_append_iff.mp ht' with ⟨a, ha, -⟩ | ⟨a, ha, hrest⟩
      · exact ⟨a, ha.symm⟩
      · cases a with
        | nil => simp [ha]
        | cons b a =>
          obtain ⟨rfl, -⟩ := List.cons.inj hrest
          exact absurd (ha ▸ List.mem_append_right _ List.mem_cons_self) hc
    rw [List.cons_append, find, hfront, find, ih]
    split
    · rfl
    · cases find s k with
      | some pos => rfl
      | none =>
        cases find s rest with
        | none => rfl
        | some pos => simp [Nat.add_assoc]

/-- A string that one `>>` can return: not empty, and no white space in it. -/
def Word (s : Str) : Prop := s ≠ [] ∧ ∀ ch ∈ s, isspace ch = false

instance (s : Str) : Decidable (Word s) := inferInstanceAs (Decidable (_ ∧ _))

/-! ## Lines -/

/-- The lines that a `while (getline(is, line))` loop reads. A last line without a newline is read
too; a stream that ends in a newline has no further empty line. -/
def getlines : Str → List Str
  | [] => []
  | ch :: s =>
    if ch = newline then [] :: getlines s
    else
      match getlines s with
      | [] => [[ch]]
      | line :: rest => (ch :: line) :: rest

/-- A written line is read back, whatever follows it. -/
theorem getlines_append_newline {line : Str} (clean : newline ∉ line) (s : Str) :
    getlines (line ++ newline :: s) = line :: getlines s := by
  induction line with
  | nil => rfl
  | cons ch line ih =>
    have hch : ch ≠ newline := fun h => clean (h ▸ List.mem_cons_self)
    have hline : newline ∉ line := fun h => clean (List.mem_cons_of_mem _ h)
    simp only [List.cons_append, getlines, if_neg hch, ih hline]

/-! ## Words -/

/-- Read words, the bytes `word` being the part of the current one already taken. -/
def wordsFrom (word : Str) : Str → List Str
  | [] => if word = [] then [] else [word]
  | ch :: s =>
    if isspace ch then
      if word = [] then wordsFrom [] s else word :: wordsFrom [] s
    else wordsFrom (word ++ [ch]) s

/-- The words that a `while (is >> word)` loop reads. -/
def words (s : Str) : List Str := wordsFrom [] s

/-- One `is >> word`: the word and what is left of the stream, or `none` when only white space is
left and the extraction fails. -/
def extract (s : Str) : Option (Str × Str) :=
  match s.dropWhile isspace with
  | [] => none
  | ch :: rest =>
    some ((ch :: rest).takeWhile (fun ch => !isspace ch),
      (ch :: rest).dropWhile (fun ch => !isspace ch))

/-- Bytes that are no white space extend the current word. -/
theorem wordsFrom_append {u : Str} (clean : ∀ ch ∈ u, isspace ch = false) (word s : Str) :
    wordsFrom word (u ++ s) = wordsFrom (word ++ u) s := by
  induction u generalizing word with
  | nil => simp only [List.nil_append, List.append_nil]
  | cons ch u ih =>
    have hch : isspace ch = false := clean ch List.mem_cons_self
    have hu : ∀ ch ∈ u, isspace ch = false := fun ch h => clean ch (List.mem_cons_of_mem _ h)
    simp only [List.cons_append, wordsFrom, hch, Bool.false_eq_true, ↓reduceIte, ih hu,
      List.append_assoc, List.nil_append]

/-- A white space ends a word. -/
theorem wordsFrom_space {word : Str} (hw : word ≠ []) {ch : UInt8} (hch : isspace ch = true)
    (s : Str) : wordsFrom word (ch :: s) = word :: words s := by
  simp only [wordsFrom, hch, ↓reduceIte, if_neg hw, words]

/-- A written word that a white space follows is read back. -/
theorem words_append_space {u : Str} (hu : Word u) {ch : UInt8} (hch : isspace ch = true)
    (s : Str) : words (u ++ ch :: s) = u :: words s := by
  rw [words, wordsFrom_append hu.2, List.nil_append, wordsFrom_space hu.1 hch]

/-- A written word at the end of the stream is read back. -/
theorem words_self {u : Str} (hu : Word u) : words u = [u] := by
  rw [words, ← List.append_nil u, wordsFrom_append hu.2, List.nil_append, List.append_nil]
  simp only [wordsFrom, if_neg hu.1]

/-- A white space ends a word that was begun. -/
theorem wordsFrom_isspace {ch : UInt8} (hch : isspace ch = true) (word s : Str) :
    wordsFrom word (ch :: s) = wordsFrom word [] ++ words s := by
  simp only [wordsFrom, hch, ↓reduceIte, words]
  split
  · rfl
  · rfl

/-- Another character goes to the word. -/
theorem wordsFrom_not_isspace {ch : UInt8} (hch : ¬ isspace ch = true) (word s : Str) :
    wordsFrom word (ch :: s) = wordsFrom (word ++ [ch]) s := by
  conv => lhs; rw [wordsFrom]
  rw [if_neg hch]

theorem wordsFrom_getlines (word s : Str) :
    wordsFrom word s = match getlines s with
      | [] => wordsFrom word []
      | line :: rest => wordsFrom word line ++ rest.flatMap words := by
  induction s generalizing word with
  | nil => rfl
  | cons ch s ih =>
    by_cases hspace : isspace ch = true
    · have hlines : words s = (getlines s).flatMap words := by
        rw [words, ih]
        cases getlines s with
        | nil => rfl
        | cons line rest => rw [List.flatMap_cons, words]
      rw [wordsFrom_isspace hspace, getlines, hlines]
      by_cases hnew : ch = newline
      · rw [if_pos hnew]
      · rw [if_neg hnew]
        cases getlines s with
        | nil =>
          show wordsFrom word [] ++ [] = wordsFrom word [ch] ++ []
          rw [wordsFrom_isspace hspace, List.append_assoc]
          rfl
        | cons line rest =>
          show _ = wordsFrom word (ch :: line) ++ _
          rw [wordsFrom_isspace hspace, List.flatMap_cons, List.append_assoc]
    · have hnew : ch ≠ newline := by
        rintro rfl
        exact hspace (by decide)
      rw [wordsFrom_not_isspace hspace, ih, getlines, if_neg hnew]
      cases getlines s with
      | nil =>
        show _ = wordsFrom word [ch] ++ []
        rw [wordsFrom_not_isspace hspace, List.append_nil]
      | cons line rest =>
        show _ = wordsFrom word (ch :: line) ++ _
        rw [wordsFrom_not_isspace hspace]

/-- **Words do not reach over lines.** -/
theorem words_getlines (s : Str) : (getlines s).flatMap words = words s := by
  rw [words, wordsFrom_getlines]
  cases getlines s with
  | nil => rfl
  | cons line rest => rw [List.flatMap_cons, words]

theorem wordsFrom_clean {word s : Str} (hw : ∀ ch ∈ word, isspace ch = false) :
    ∀ u ∈ wordsFrom word s, Word u := by
  induction s generalizing word with
  | nil =>
    intro u hu
    by_cases h : word = []
    · simp only [wordsFrom, if_pos h, List.not_mem_nil] at hu
    · simp only [wordsFrom, if_neg h, List.mem_singleton] at hu
      exact hu ▸ ⟨h, hw⟩
  | cons ch s ih =>
    intro u hu
    have hnil : ∀ ch ∈ ([] : Str), isspace ch = false := fun ch h => absurd h List.not_mem_nil
    by_cases hch : isspace ch = true
    · by_cases h : word = []
      · simp only [wordsFrom, hch, ↓reduceIte, if_pos h] at hu
        exact ih hnil u hu
      · rw [wordsFrom_space h hch] at hu
        rcases List.mem_cons.mp hu with rfl | hu
        · exact ⟨h, hw⟩
        · exact ih hnil u hu
    · simp only [Bool.not_eq_true] at hch
      simp only [wordsFrom, hch, Bool.false_eq_true, ↓reduceIte] at hu
      refine ih (fun b hb => ?_) u hu
      rcases List.mem_append.mp hb with hb | hb
      · exact hw b hb
      · exact List.mem_singleton.mp hb ▸ hch

/-- Whatever `>>` returns is a word. -/
theorem words_clean (s : Str) : ∀ u ∈ words s, Word u :=
  wordsFrom_clean fun _ h => absurd h List.not_mem_nil

/-- White space before a word is skipped. -/
theorem words_dropWhile (s : Str) : words (s.dropWhile isspace) = words s := by
  induction s with
  | nil => rfl
  | cons ch s ih =>
    by_cases hch : isspace ch = true
    · rw [List.dropWhile_cons_of_pos hch, ih]
      simp only [words, wordsFrom, hch, ↓reduceIte]
    · rw [List.dropWhile_cons_of_neg hch]

/-- **`words` iterates `extract`**: a failed extraction leaves no words, and a successful one takes
the first of them. -/
theorem words_of_extract (s : Str) :
    words s = match extract s with
      | none => []
      | some (word, rest) => word :: words rest := by
  rw [← words_dropWhile, extract]
  cases hs : s.dropWhile isspace with
  | nil => rfl
  | cons ch t =>
    have hch : isspace ch = false := by
      have := List.head?_dropWhile_not isspace s
      simpa only [hs, List.head?_cons] using this
    have hclean : ∀ b ∈ (ch :: t).takeWhile (fun ch => !isspace ch), isspace b = false :=
      fun b hb => by simpa only [Bool.not_eq_true'] using List.mem_takeWhile_imp hb
    have hne : (ch :: t).takeWhile (fun ch => !isspace ch) ≠ [] := by
      simp only [List.takeWhile_cons, hch, Bool.not_false, ↓reduceIte, ne_eq, reduceCtorEq,
        not_false_eq_true]
    show words (ch :: t) = _ :: words _
    have split := List.takeWhile_append_dropWhile (p := fun ch => !isspace ch) (l := ch :: t)
    conv => lhs; rw [← split]
    cases hd : (ch :: t).dropWhile (fun ch => !isspace ch) with
    | nil => rw [List.append_nil, words_self ⟨hne, hclean⟩]; rfl
    | cons d r =>
      have hsp : isspace d = true := by
        have := List.head?_dropWhile_not (fun ch => !isspace ch) (ch :: t)
        simpa only [hd, List.head?_cons, Bool.not_eq_false', Bool.not_not] using this
      rw [words_append_space ⟨hne, hclean⟩ hsp]
      simp only [words, wordsFrom, hsp, ↓reduceIte]

end Cxx
