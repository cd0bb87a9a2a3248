import LightSearch.IndexGen.Dictionary
import LightSearch.Server.ProtocolParser

/-!
# The English index agrees with the dictionary

`buildEnDict` and `buildIndexen` go through `_dicten` in the same order, so the numbers that the
second counts are the numbers that the database gives to the rows of the first. Then the two tables
join each letter to the words that have it, and the candidates of a query are the words that have one
of its letters (`englishIndex_exact`).
-/

set_option autoImplicit false

namespace LightSearch

open Cxx HashMap Run

variable {o : Unordered} {m : DicProducer}

/-- When all articles can be opened, the loop comes to its end. -/
theorem countArticles_good {stopen : List Str} {files : List (Option Str)}
    (hopen : ∀ file ∈ files, file.isSome) (dicten : Map Str Nat) :
    (countArticles stopen dicten files).2 = true := by
  induction files generalizing dicten with
  | nil => rfl
  | cons file files ih =>
    have hfiles : ∀ f ∈ files, f.isSome := fun f hf => hopen f (List.mem_cons_of_mem _ hf)
    cases file with
    | none => exact absurd (hopen none List.mem_cons_self) Bool.false_ne_true
    | some contents => exact ih hfiles _

/-- All words that were counted are inserted, in the order of the loop. -/
theorem buildEnDict_inserts (hopen : ∀ file ∈ m.filesen, file.isSome) :
    (m.buildEnDict o).2 = inOrder o (m.buildEnDict o).1.dicten := by
  have hgood : (countArticles m.stopen m.dicten m.filesen).2 = true := countArticles_good hopen _
  unfold DicProducer.buildEnDict
  dsimp only
  rw [hgood]
  rfl

/-- A word has a letter, as the index writes the letter. -/
def HasLetter (word letter : Str) : Prop := ∃ c ∈ word, [c] = letter

/-- The index has a letter with the number of a word when the word has the letter. -/
theorem mem_buildIndexen (i : IndexRow) :
    i ∈ m.buildIndexen o ↔
      ∃ entry, (entry, i.indexId) ∈ (inOrder o m.dicten).zipIdx 1 ∧
        HasLetter entry.1 i.character := by
  unfold DicProducer.buildIndexen HasLetter
  simp only [List.mem_flatMap, List.mem_map]
  constructor
  · rintro ⟨⟨entry, id⟩, hmem, c, hc, rfl⟩
    exact ⟨entry, hmem, c, hc, rfl⟩
  · rintro ⟨entry, hmem, c, hc, hcharacter⟩
    refine ⟨(entry, i.indexId), hmem, c, hc, ?_⟩
    rw [hcharacter]

/-- The two tables join a letter to the words of the dictionary that have it. -/
theorem joins_buildIndexen {letter word : Str} {frequency : Nat} :
    DictTables.Joins ⟨autoIncrement (inOrder o m.dicten), m.buildIndexen o⟩ letter word frequency ↔
      m.dicten.lookup word = some frequency ∧ HasLetter word letter := by
  rw [← mem_inOrder (o := o)]
  exact joins_autoIncrement mem_buildIndexen

/-- The characters of an English query can stand between quotes. -/
theorem quotable_of_isPureEnglish {q : Str} (h : isPureEnglish q = true) :
    ∀ ch ∈ toLower q, Quotable ch := by
  have hbyte : ∀ ch : UInt8, (isalpha ch || decide (ch = blank)) = true →
      Quotable (if isupper ch then tolower ch else ch) := forall_byte (by decide +kernel)
  intro ch hch
  obtain ⟨ch', hch', rfl⟩ := List.mem_map.mp hch
  exact hbyte ch' (List.all_eq_true.mp h ch' hch')

/-- **The English index is exact.** When all articles can be opened, the candidates of an English
query are the words of the dictionary that have one of its lower-cased characters, with their
frequencies. -/
theorem englishIndex_exact (o : Unordered) (m : DicProducer)
    (hopen : ∀ file ∈ m.filesen, file.isSome) {q : Str} (hq : isPureEnglish q = true) :
    let (m', inserts) := m.buildEnDict o
    let tables : DictTables := ⟨autoIncrement inserts, m'.buildIndexen o⟩
    ∃ queryRes, enQueryRes tables (toLower q) = .ok queryRes ∧
      ∀ word n, (word, n) ∈ queryRes ↔
        ∃ frequency, m'.dicten.lookup word = some frequency ∧ n = (frequency : Int) ∧
          ∃ ch ∈ toLower q, ch ∈ word := by
  show ∃ queryRes, enQueryRes ⟨autoIncrement (m.buildEnDict o).2, (m.buildEnDict o).1.buildIndexen o⟩
    (toLower q) = .ok queryRes ∧ _
  rw [buildEnDict_inserts hopen]
  have hchars : ∀ str ∈ (toLower q).map fun ch => [ch], ∀ ch ∈ str, Quotable ch := by
    intro str hstr ch hch
    obtain ⟨ch', hch', rfl⟩ := List.mem_map.mp hstr
    obtain rfl := List.mem_singleton.mp hch
    exact quotable_of_isPureEnglish hq ch hch'
  obtain ⟨queryRes, hrun, hmem⟩ := gather_ok
    ⟨autoIncrement (inOrder o (m.buildEnDict o).1.dicten), (m.buildEnDict o).1.buildIndexen o⟩
    enSelect_wellFormed hchars
  refine ⟨queryRes, hrun, fun word n => ?_⟩
  rw [hmem]
  simp only [joins_buildIndexen]
  constructor
  · rintro ⟨str, hstr, frequency, ⟨hlookup, c, hc, rfl⟩, rfl⟩
    obtain ⟨ch, hch, heq⟩ := List.mem_map.mp hstr
    obtain rfl := List.head_eq_of_cons_eq heq
    exact ⟨frequency, hlookup, rfl, ch, hch, hc⟩
  · rintro ⟨frequency, hlookup, rfl, ch, hch, hc⟩
    exact ⟨[ch], List.mem_map_of_mem hch, frequency, ⟨hlookup, ch, hc, rfl⟩, rfl⟩

/-- Two articles, and a query with a capital letter. -/
theorem englishIndex_exact_two :
    let m := DicProducer.init [some (lit "Red apples, red\nwine"), some (lit "the 2nd apples.")] []
      (some (lit "the\n")) none
    let q := lit "Rx"
    ((∀ file ∈ m.filesen, file.isSome) ∧ isPureEnglish q = true) ∧
    let (m', inserts) := m.buildEnDict .backwards
    let tables : DictTables := ⟨autoIncrement inserts, m'.buildIndexen .backwards⟩
    ∃ queryRes, enQueryRes tables (toLower q) = .ok queryRes ∧
      ∀ word n, (word, n) ∈ queryRes ↔
        ∃ frequency, m'.dicten.lookup word = some frequency ∧ n = (frequency : Int) ∧
          ∃ ch ∈ toLower q, ch ∈ word := by
  intro m q
  have hopen : ∀ file ∈ m.filesen, file.isSome := by decide
  have hq : isPureEnglish q = true := by decide
  exact ⟨⟨hopen, hq⟩, englishIndex_exact .backwards m hopen hq⟩

end LightSearch
