import LightSearch.IndexGen.CnStatements
import LightSearch.IndexGen.EnWords

/-!
# The dictionaries that are built

`main` builds both dictionaries one after the other from what `DicProducer` reads: the articles, the
stop words and the segmenter decide what the four tables are. A `Dictionary` is one that is built so; the
rows of `indexCn` are those that the statements of `buildIndexcn` insert, whether or not they are the
index that `buildCnDict` has left (`cn_eq`). There are such statements for every index
(`exists_buildIndexcn`).

Any plain words are a dictionary, with any frequencies, since an article can have them as its tokens
(`joins_ofWords`).
-/

set_option autoImplicit false

namespace LightSearch

open Cxx HashMap Run

/-- What the dictionaries are built from, what `buildCnDict` leaves and inserts, after `buildEnDict`, and
the statements that `buildIndexcn` executes then. -/
structure Dictionary where
  order : Unordered
  filesen : List (Option Str)
  filescn : List (Option Str)
  stopEn : Option Str
  stopCn : Option Str
  cut : Str → List Str
  producer : DicProducer
  inserts : List (Str × Nat)
  built : (((DicProducer.init filesen filescn stopEn stopCn).buildEnDict order).1).buildCnDict cut =
    .ok (producer, inserts)
  statements : List Str
  indexed : buildIndexcn producer.indexcn = .ok statements

namespace Dictionary

/-- The English tables. -/
def en (d : Dictionary) : DictTables :=
  let (m, inserts) := (DicProducer.init d.filesen d.filescn d.stopEn d.stopCn).buildEnDict d.order
  ⟨autoIncrement inserts, m.buildIndexen d.order⟩

/-- The Chinese tables. -/
def cn (d : Dictionary) : DictTables := ⟨autoIncrement d.inserts, insertedRows d.statements⟩

/-- **The Chinese tables of an index that is not disturbed**: those of the counted words. -/
theorem cn_eq {d : Dictionary} (hopen : ∀ file ∈ d.filescn, file.isSome)
    (h : d.producer.indexcn.Undisturbed) : d.cn = cnTables d.producer.dictcn := by
  obtain ⟨hwords, htables⟩ := buildCnDict_tables
    (m := ((DicProducer.init d.filesen d.filescn d.stopEn d.stopCn).buildEnDict d.order).1)
    hopen rfl rfl d.built
  have hrows : indexcnRows d.producer.indexcn = indexcnRows (collectIndexcn ∅ d.producer.dictcn.toList) :=
    congrArg DictTables.index htables
  have hquotable : ∀ row ∈ indexcnRows d.producer.indexcn, AllQuotable row.character := by
    intro row hrow
    rw [hrows] at hrow
    obtain ⟨entry, hentry, hpiece⟩ := (mem_indexcnRows row).mp hrow
    have hfound := Std.TreeMap.mem_toList_iff_getElem?_eq_some.mp (List.fst_mem_of_mem_zipIdx hentry)
    have hword := hwords entry.1 (Std.TreeMap.mem_iff_isSome_getElem?.mpr (by rw [hfound]; rfl))
    exact fun ch hch => quotable_of_isWord hword ch (mem_of_hasPiece hpiece hch)
  rw [← htables]
  exact congrArg (DictTables.mk _) (insertedRows_eq h hquotable d.indexed)

/-- An article that has these tokens. -/
def article (tokens : List Str) : Str := tokens.flatMap fun token => token ++ [blank]

/-- The dictionary of one English article with these tokens, and no stop words. -/
def ofWords (tokens : List Str) : Dictionary where
  order := .asIs
  filesen := [some (article tokens)]
  filescn := []
  stopEn := none
  stopCn := none
  cut _ := []
  producer :=
    { ((DicProducer.init [some (article tokens)] [] none none).buildEnDict .asIs).1 with
      dictcn := ∅, indexcn := ∅ }
  inserts := []
  built := rfl
  statements := []
  indexed := rfl

theorem words_article {tokens : List Str} (h : ∀ token ∈ tokens, Word token) :
    words (article tokens) = tokens := by
  induction tokens with
  | nil => rfl
  | cons token tokens ih =>
    obtain ⟨htoken, htokens⟩ := List.forall_mem_cons.mp h
    unfold article at ih ⊢
    rw [List.flatMap_cons, List.append_assoc, List.singleton_append,
      words_append_space htoken (by decide), ih htokens]

/-- A plain word is counted as itself. -/
theorem countedWord_normal {word : Str} (h : Normal word) : countedWord [] word = some word := by
  refine countedWord_eq_some.mpr ⟨⟨word, .inl rfl, ?_⟩, h, List.not_mem_nil⟩
  unfold toLower
  refine (List.map_congr_left fun ch hch => ?_).trans (List.map_id word)
  rw [(h.2 ch hch).2.2]
  rfl

/-- **The English tables of plain words**: a letter joins to the words that have it, with the number
of times that they stand in the article. -/
theorem joins_ofWords {tokens : List Str} (hword : ∀ token ∈ tokens, Word token)
    (hnormal : ∀ token ∈ tokens, Normal token) {letter word : Str} {frequency : Nat} :
    (ofWords tokens).en.Joins letter word frequency ↔
      word ∈ tokens ∧ frequency = tokens.count word ∧ HasLetter word letter := by
  have hopen : ∀ file ∈ [some (article tokens)], file.isSome := by
    intro file hfile
    rw [List.mem_singleton.mp hfile]
    rfl
  have hen : (ofWords tokens).en = ⟨autoIncrement
      ((DicProducer.init [some (article tokens)] [] none none).buildEnDict .asIs).2,
      ((DicProducer.init [some (article tokens)] [] none none).buildEnDict .asIs).1.buildIndexen
        .asIs⟩ := rfl
  have hread : tokensRead [some (article tokens)] = tokens := by
    unfold tokensRead articlesRead
    rw [List.flatMap_cons, words_article hword]
    exact List.append_nil _
  have hcount : ∀ token ∈ tokens, (countedWord [] token == some word) = (token == word) := by
    intro token htoken
    rw [countedWord_normal (hnormal token htoken)]
    rfl
  rw [hen, buildEnDict_inserts hopen, joins_buildIndexen, lookup_buildEnDict .asIs rfl]
  show (frequency = (tokensRead [some (article tokens)]).countP
    (fun token => countedWord [] token == some word) ∧ 0 < frequency) ∧ _ ↔ _
  rw [hread, List.countP_congr fun token htoken => by rw [hcount token htoken]]
  show (frequency = tokens.count word ∧ 0 < frequency) ∧ _ ↔ _
  constructor
  · rintro ⟨⟨rfl, hpos⟩, hletter⟩
    exact ⟨List.count_pos_iff.mp hpos, rfl, hletter⟩
  · rintro ⟨hmem, rfl, hletter⟩
    exact ⟨⟨rfl, List.count_pos_iff.mpr hmem⟩, hletter⟩

/-- There are no Chinese words in it. -/
theorem not_joins_cn (tokens : List Str) {str word : Str} {frequency : Nat} :
    ¬ (ofWords tokens).cn.Joins str word frequency := by
  rintro ⟨d, hd, -⟩
  exact absurd hd List.not_mem_nil

end Dictionary

end LightSearch
