import Std.Data.TreeMap
import LightSearch.Lib.Container
import LightSearch.Lib.Run
import LightSearch.Lib.Utf8
import LightSearch.Dict.Recommender

/-!
# Building the dictionaries

`DicProducer` reads the articles, counts their words, and writes two tables for each language: the
words with their frequencies, and an index from characters to the row numbers of the words that have
them. The database numbers the word rows by itself; the index is written from a count of the words in
the order of the same loop.

For English the words and their bytes are written by two functions, each with a loop over `_dicten`.
For Chinese the index is collected while the words are written: a word is cut into pieces of three
bytes from its beginning, and a shorter rest is left out.

`joins_autoIncrement` is what the two numberings have in common: when the index has a character with
the number of a word just when the word has the character, the join of the two tables pairs
characters with words as it should.
-/

set_option autoImplicit false

namespace LightSearch

open Cxx HashMap Run

/-- `map<string, set<int>>`. -/
abbrev IndexCn := Std.TreeMap Str (Std.TreeSet Nat)

/-- The members of `DicProducer`. An article is `none` when it cannot be opened. -/
structure DicProducer where
  filesen : List (Option Str)
  filescn : List (Option Str)
  dicten : Map Str Nat
  dictcn : Std.TreeMap Str Nat
  indexcn : IndexCn
  stopen : List Str
  stopcn : List Str

/-- The stop words of a file: the first word of each line. -/
def stopWords (contents : Str) : List Str :=
  (getlines contents).map fun tem => (words tem).headD []

/-- The constructor, from the articles and the two files of stop words. -/
def DicProducer.init (filesen filescn : List (Option Str)) (stopEn stopCn : Option Str) :
    DicProducer :=
  let stopen := match stopEn with
    | none => []
    | some contents => stopWords contents
  let stopcn := match stopEn, stopCn with
    | some _, some contents => stopWords contents
    | _, _ => []
  ⟨filesen, filescn, ∅, ∅, ∅, stopen, stopcn⟩

/-! ## English -/

/-- Whether the word has a digit, or a punctuation mark that is neither its first nor its last
character. -/
def hasDigit (word : Str) : Bool :=
  (List.range word.length).any fun i =>
    isdigit (word.getD i 0) ||
      (decide (i < word.length - 1) && decide (1 ≤ i) && ispunct (word.getD i 0))

/-- What is counted for a word of an article, if it is counted. `front` of an empty string is the NUL
behind it. -/
def countedWord (stopen : List Str) (word : Str) : Option Str :=
  if hasDigit word then none
  else
    let word := if ispunct (word.getLastD 0) then word.dropLast else word
    if ispunct (word.headD 0) then none
    else if word.length = 0 then none
    else
      let word := toLower word
      if word ∈ stopen then none else some word

/-- One article. -/
def countArticle (stopen : List Str) (dicten : Map Str Nat) (contents : Str) : Map Str Nat :=
  ((getlines contents).flatMap words).foldl
    (fun dicten word =>
      match countedWord stopen word with
      | none => dicten
      | some word => bump dicten word)
    dicten

/-- The loop over the articles, and whether it came to its end: an article that cannot be opened ends
the whole function. -/
def countArticles (stopen : List Str) : Map Str Nat → List (Option Str) → Map Str Nat × Bool
  | dicten, [] => (dicten, true)
  | dicten, none :: _ => (dicten, false)
  | dicten, some contents :: files =>
    countArticles stopen (countArticle stopen dicten contents) files

/-- `buildEnDict`, and the words that it inserts into `dictEn`. -/
def DicProducer.buildEnDict (o : Unordered) (m : DicProducer) : DicProducer × List (Str × Nat) :=
  let (dicten, good) := countArticles m.stopen m.dicten m.filesen
  ({ m with dicten := dicten }, if good then inOrder o dicten else [])

/-- The statement that inserts a word. -/
def enInsert (entry : Str × Nat) : Str :=
  lit "INSERT INTO dictEn (word, frequency) VALUES ('" ++ entry.1 ++ lit "', " ++ decimal entry.2 ++
    lit ");"

/-- `buildIndexen`: the rows that it inserts into `indexEn`. -/
def DicProducer.buildIndexen (o : Unordered) (m : DicProducer) : List IndexRow :=
  ((inOrder o m.dicten).zipIdx 1).flatMap fun elem => elem.1.1.map fun c => ⟨[c], elem.2⟩

/-- The statement that inserts a letter. -/
def IndexRow.enInsert (row : IndexRow) : Str :=
  lit "INSERT INTO indexEn VALUES ('" ++ row.character ++ lit "', " ++ decimal row.indexId ++ lit ");"

/-! ## Chinese -/

/-- `from_bytes` of the converter, which throws for bytes that are not UTF-8. An encoded surrogate, such as
the bytes ED A0 80, is refused here like them; versions of libstdc++ take it for a character. -/
def fromBytes (str : Str) : Except Fault (List Char) :=
  match str.toByteArray.utf8Decode? with
  | none => .error (.thrown (lit "wstring_convert::from_bytes"))
  | some ws => .ok ws.toList

/-- The CJK ideographs of the rule: U+4E00 to U+9FA5. -/
def isIdeograph (ch : Char) : Bool := 0x4E00 ≤ ch.toNat && ch.toNat ≤ 0x9FA5

/-- The characters that `[^a-zA-z\d\u4E00-\u9FA5]` does not remove; the second range goes from the
capital to the small letter. -/
def keptByRule (ch : Char) : Bool :=
  (97 ≤ ch.toNat && ch.toNat ≤ 122) || (65 ≤ ch.toNat && ch.toNat ≤ 122) ||
    (48 ≤ ch.toNat && ch.toNat ≤ 57) || isIdeograph ch

/-- A class of wide characters: in the C locale there are only ASCII characters in it. -/
def isWide (is : UInt8 → Bool) (ch : Char) : Bool := ch.toNat < 128 && is ch.toNat.toUInt8

/-- What is counted for a token of the segmenter, if it is counted. -/
def countedToken (stopen stopcn : List Str) (token : Str) : Except Fault (Option Str) :=
  if token.length = 0 then .ok none
  else do
    let ws ← fromBytes token
    let wret := ws.filter keptByRule
    if wret.any fun ch => isWide ispunct ch || isWide isspace ch then .ok none
    else
      let word := Utf8.encode wret
      if word.length = 0 then .ok none
      else if word.length = 1 && (ispunct (word.headD 0) || isalnum (word.headD 0)) then .ok none
      else if word ∈ stopen ∨ word ∈ stopcn then .ok none
      else .ok (some word)

/-- `_dictcn[word]++`, or a first entry. -/
def bumpCn (dictcn : Std.TreeMap Str Nat) (word : Str) : Std.TreeMap Str Nat :=
  match dictcn[word]? with
  | none => dictcn.insert word 1
  | some n => dictcn.insert word (n + 1)

/-- One token. -/
def countCnToken (stopen stopcn : List Str) (dictcn : Std.TreeMap Str Nat) (token : Str) :
    Except Fault (Std.TreeMap Str Nat) := do
  match ← countedToken stopen stopcn token with
  | none => .ok dictcn
  | some word => .ok (bumpCn dictcn word)

/-- The loop over the Chinese articles; `cut` is the segmenter. -/
def countChinese (cut : Str → List Str) (stopen stopcn : List Str) :
    Std.TreeMap Str Nat → List (Option Str) → Except Fault (Std.TreeMap Str Nat × Bool)
  | dictcn, [] => .ok (dictcn, true)
  | dictcn, none :: _ => .ok (dictcn, false)
  | dictcn, some contents :: files => do
    let dictcn ← run (countCnToken stopen stopcn) dictcn (cut contents)
    countChinese cut stopen stopcn dictcn files

/-- The keys of a word for the index: its bytes, three at a time, while there are three. -/
def threeBytes : Str → List Str
  | a :: b :: c :: m => [a, b, c] :: threeBytes m
  | _ => []

/-- `_indexcn[str].insert(line)`, or a first entry. -/
def addLine (line : Nat) (indexcn : IndexCn) (str : Str) : IndexCn :=
  match indexcn[str]? with
  | none => indexcn.insert str (Std.TreeSet.empty.insert line)
  | some lines => indexcn.insert str (lines.insert line)

/-- The loop that collects the index, with its counter of lines. -/
def collectIndexcn (indexcn : IndexCn) (dictcn : List (Str × Nat)) : IndexCn :=
  (dictcn.zipIdx 1).foldl
    (fun indexcn elem => (threeBytes elem.1.1).foldl (addLine elem.2) indexcn)
    indexcn

/-- `buildCnDict`, and the words that it inserts into `dictCn`. -/
def DicProducer.buildCnDict (cut : Str → List Str) (m : DicProducer) :
    Except Fault (DicProducer × List (Str × Nat)) := do
  let (dictcn, good) ← countChinese cut m.stopen m.stopcn m.dictcn m.filescn
  if good then
    .ok ({ m with dictcn := dictcn, indexcn := collectIndexcn m.indexcn dictcn.toList }, dictcn.toList)
  else .ok ({ m with dictcn := dictcn }, [])

/-- The statement that inserts a word. -/
def cnInsert (entry : Str × Nat) : Str :=
  lit "INSERT INTO dictCn (word,frequency) VALUES ('" ++ entry.1 ++ lit "'," ++ decimal entry.2 ++
    lit ");"

/-- The pairs of `_indexcn`, as rows of `indexCn`. -/
def indexcnRows (indexcn : IndexCn) : List IndexRow :=
  indexcn.toList.flatMap fun elem => elem.2.toList.map fun line => ⟨elem.1, line⟩

/-! ## The two numberings -/

theorem mem_autoIncrement {inserts : List (Str × Nat)} {d : DictRow} :
    d ∈ autoIncrement inserts ↔ ((d.word, d.frequency), d.id) ∈ inserts.zipIdx 1 := by
  unfold autoIncrement
  rw [List.mem_map]
  constructor
  · rintro ⟨p, hp, rfl⟩
    exact hp
  · intro h
    exact ⟨_, h, rfl⟩

/-- **The join of the two tables.** When the index has a character with a number just when the word
of that number has the character, a character joins to the words that have it, and their
frequencies. -/
theorem joins_autoIncrement {inserts : List (Str × Nat)} {index : List IndexRow}
    {Has : Str → Str → Prop}
    (h : ∀ i, i ∈ index ↔ ∃ entry, (entry, i.indexId) ∈ inserts.zipIdx 1 ∧ Has entry.1 i.character)
    {character word : Str} {frequency : Nat} :
    DictTables.Joins ⟨autoIncrement inserts, index⟩ character word frequency ↔
      (word, frequency) ∈ inserts ∧ Has word character := by
  unfold DictTables.Joins
  constructor
  · rintro ⟨d, hd, rfl, rfl, i, hi, rfl, hid⟩
    have hword : ((d.word, d.frequency), d.id) ∈ inserts.zipIdx 1 := mem_autoIncrement.mp hd
    obtain ⟨entry, hentry, hhas⟩ := (h i).mp hi
    -- a number belongs to one word
    have hsome := (List.mk_mem_zipIdx_iff_le_and_getElem?_sub.mp hword).2
    rw [hid, (List.mk_mem_zipIdx_iff_le_and_getElem?_sub.mp hentry).2] at hsome
    obtain rfl := Option.some.inj hsome
    exact ⟨List.fst_mem_of_mem_zipIdx hword, hhas⟩
  · rintro ⟨hmem, hhas⟩
    obtain ⟨n, hn⟩ := List.mem_iff_getElem?.mp hmem
    have hword : ((word, frequency), n + 1) ∈ inserts.zipIdx 1 := by
      rw [List.mk_mem_zipIdx_iff_le_and_getElem?_sub]
      exact ⟨Nat.le_add_left 1 n, hn⟩
    refine ⟨⟨n + 1, word, frequency⟩, mem_autoIncrement.mpr hword, rfl, rfl,
      ⟨character, n + 1⟩, (h _).mpr ⟨(word, frequency), hword, hhas⟩, rfl, rfl⟩

end LightSearch
