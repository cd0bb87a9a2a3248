import LightSearch.Client.Dialogue
import LightSearch.IndexGen.CnWords
import LightSearch.Server.LetterCase

/-!
# From the articles to the keywords that are shown

The dictionaries are built from articles, the recommenders look the characters of a message up in them,
and the client shows the keywords of the reply. What it shows depends on the articles alone: the words
that are counted in them and have a character of the message, the nearest five, by their distance, their
frequency and the word itself (`keywords_of_articles`). A message that is such a word comes first.

The articles in English are UTF-8. In others a word can end within a character, and then its distance
cannot be measured. And `buildIndexcn` has to write the Chinese index as it is, which it does when no piece
has the digits of a line that it is on but the last (`cn_eq`); else it inserts rows of other pieces.
-/

set_option autoImplicit false

namespace LightSearch

open Cxx HashMap Run EditDistance Levenshtein CandidateResult Dialogue

namespace Dictionary

variable (d : Dictionary)

/-- `DicProducer` before it reads the articles. -/
def source : DicProducer := DicProducer.init d.filesen d.filescn d.stopEn d.stopCn

/-- The English words that are counted, with their frequencies. -/
def EnEntry (word : Str) (n : Nat) : Prop :=
  n = (tokensRead d.filesen).countP (fun token => countedWord d.source.stopen token == some word) ∧ 0 < n

/-- The Chinese words that are counted, with their frequencies. -/
def CnEntry (word : Str) (n : Nat) : Prop :=
  n = ((articlesRead d.filescn).flatMap d.cut).countP
    (fun token => CountedAs d.source.stopen d.source.stopcn word token) ∧ 0 < n

/-- All articles can be opened, those in English are UTF-8, and no piece of the Chinese words has the digits
of a line that it is on but the last: `buildIndexcn` would take them for the number at the end of its
statement. -/
structure Good : Prop where
  en : ∀ file ∈ d.filesen, file.isSome
  cn : ∀ file ∈ d.filescn, file.isSome
  valid : ∀ contents, some contents ∈ d.filesen → Utf8.Valid contents
  undisturbed : d.producer.indexcn.Undisturbed

variable {d}

/-! ## The tables -/

theorem joins_cn (h : d.Good) {str word : Str} {n : Nat} :
    d.cn.Joins str word n ↔ d.CnEntry word n ∧ HasPiece word str := by
  rw [cn_eq h.cn h.undisturbed, joins_cnTables, buildCnDict_tallied rfl d.built word n]
  rfl

/-- The words that are looked up for a text, with their frequencies: by the characters of one byte in the
English tables, unless the text goes to the Chinese recommender, and by the others in the Chinese ones. -/
def LooksUp (d : Dictionary) (cs : List Char) (row : Str × Int) : Prop :=
  ∃ c ∈ cs, ∃ n : Nat, row.2 = n ∧
    (((isPureEnglish (Utf8.encode cs) = true ∨ isPureChinese (Utf8.encode cs) = false) ∧
        d.EnEntry row.1 n ∧ HasLetter row.1 (String.utf8EncodeChar c)) ∨
      (d.CnEntry row.1 n ∧ HasPiece row.1 (String.utf8EncodeChar c)))

section Lookup

variable {cs : List Char}

/-- What the Chinese recommender gets. -/
theorem chQueryRes_ok (h : d.Good) (hq : AllQuotable (Utf8.encode cs))
    (henglish : isPureEnglish (Utf8.encode cs) = false)
    (hchinese : isPureChinese (Utf8.encode cs) = true) :
    ∃ queryRes, chQueryRes d.cn (Utf8.encode cs) = .ok queryRes ∧
      ∀ row, row ∈ queryRes ↔ d.LooksUp cs row := by
  obtain ⟨queryRes, hrun, hmem⟩ := @cutLookups_ok _ (fun _ => d.cn)
    (fun _ hstr => gatherOne_ok d.cn cnSelect_wellFormed hstr) cs hq
  refine ⟨queryRes, hrun, fun row => ?_⟩
  rw [hmem]
  unfold Looked LooksUp
  constructor
  · rintro ⟨str, hstr, word, n, hjoins, rfl⟩
    obtain ⟨c, hc, rfl⟩ := List.mem_map.mp hstr
    exact ⟨c, hc, n, rfl, .inr ((joins_cn h).mp hjoins)⟩
  · rintro ⟨c, hc, n, hn, ⟨hasks, -⟩ | hentry⟩
    · rw [henglish, hchinese] at hasks
      simp at hasks
    · exact ⟨_, List.mem_map_of_mem hc, row.1, n, (joins_cn h).mpr hentry, Prod.ext rfl hn⟩

end Lookup

/-! ## The ranking -/

/-- The rows for a text in the order of the candidates: the nearest first, then the most frequent, then by
the word. -/
structure Ranked (rows : Str × Int → Prop) (cs : List Char) (ranking : List CandidateResult) : Prop where
  sorted : ranking.Pairwise Before
  mem : ∀ candi, candi ∈ ranking ↔ rows (candi.word, candi.freq) ∧
    ∃ ds, Utf8.encode ds = candi.word ∧ candi.dist = levenshtein cs ds

section Ranking

variable {json : Json.Text} {cs : List Char} {rows : Str × Int → Prop}

theorem eq_of_levenshtein {ds : List Char} (h : levenshtein cs ds = 0) : cs = ds := by
  have halign : ∀ {n : Nat} {xs ys : List Char}, Alignment n xs ys → n = 0 → xs = ys := by
    intro n xs ys hxs
    induction hxs with
    | nil => exact fun _ => rfl
    | keep a rest ih => exact fun hn => congrArg (a :: ·) (ih hn)
    | substitute => exact fun hn => absurd hn (Nat.succ_ne_zero _)
    | insert => exact fun hn => absurd hn (Nat.succ_ne_zero _)
    | delete => exact fun hn => absurd hn (Nat.succ_ne_zero _)
  exact halign (levenshtein_alignment cs ds) h

/-- The text itself is ranked first. -/
theorem Ranked.head {ranking : List CandidateResult} (h : Ranked rows cs ranking) {n : Int}
    (hrow : rows (Utf8.encode cs, n)) :
    ranking.head?.map CandidateResult.word = some (Utf8.encode cs) := by
  have hzero : levenshtein cs cs = 0 := Nat.le_zero.mp (levenshtein_le (.refl cs))
  have hself : (⟨Utf8.encode cs, n, 0⟩ : CandidateResult) ∈ ranking :=
    (h.mem _).mpr ⟨hrow, cs, rfl, hzero.symm⟩
  cases ranking with
  | nil => exact absurd hself List.not_mem_nil
  | cons first ranking =>
    have hdist : first.dist = 0 := by
      rcases List.mem_cons.mp hself with rfl | hlater
      · rfl
      · rcases (List.pairwise_cons.mp h.sorted).1 _ hlater with hlt | ⟨heq, -⟩
        · exact absurd hlt (Nat.not_lt_zero _)
        · exact heq
    obtain ⟨-, ds, hds, hfirst⟩ := (h.mem first).mp List.mem_cons_self
    rw [eq_of_levenshtein (hfirst.symm.trans hdist), hds]
    rfl

end Ranking

end Dictionary

end LightSearch
