import LightSearch.IndexGen.EnIndex

/-!
# What the English dictionary counts

The checks of `buildEnDict` look at a token from several sides: digits anywhere, punctuation marks
inside, one mark that is cut off at the end, then the first character, then whether anything is left.
Together they keep the tokens that become a plain word, `Normal`, when at most one mark is cut off
and the letters are lower-cased (`countedWord_eq_some`), and a word's count is the number of tokens
that become it (`dicten_exact`).

A file that cannot be opened ends `buildEnDict` before anything is inserted, but what the files before
it had stays in `_dicten`, and `buildIndexen` writes an index of it (`index_refers_iff`).
-/

set_option autoImplicit false

namespace LightSearch

open Cxx HashMap Run

/-- The articles before the first one that cannot be opened. -/
def articlesRead : List (Option Str) → List Str
  | [] => []
  | none :: _ => []
  | some contents :: files => contents :: articlesRead files

/-- The tokens of these articles. -/
def tokensRead (files : List (Option Str)) : List Str := (articlesRead files).flatMap words

/-- A plain word: there is no digit, no punctuation mark and no capital letter in it. -/
def Normal (word : Str) : Prop :=
  word ≠ [] ∧ ∀ ch ∈ word, isdigit ch = false ∧ ispunct ch = false ∧ isupper ch = false

/-- The token becomes the word when its letters are lower-cased, and at most one punctuation mark is
cut off its end. -/
def Becomes (token word : Str) : Prop :=
  ∃ stem, (token = stem ∨ ∃ mark, ispunct mark = true ∧ token = stem ++ [mark]) ∧
    toLower stem = word

/-- There is a stem for a token just when the token is one, or all but its last character is. -/
theorem becomes_iff {token word : Str} :
    Becomes token word ↔ toLower token = word ∨
      ispunct (token.getLastD 0) = true ∧ toLower token.dropLast = word := by
  constructor
  · rintro ⟨stem, rfl | ⟨mark, hmark, rfl⟩, hword⟩
    · exact .inl hword
    · refine .inr ⟨?_, ?_⟩
      · rwa [List.getLastD_concat]
      · rwa [List.dropLast_concat]
  · rintro (hword | ⟨hmark, hword⟩)
    · exact ⟨token, .inl rfl, hword⟩
    · rcases List.eq_nil_or_concat token with rfl | ⟨stem, last, rfl⟩
      · exact ⟨[], .inl rfl, hword⟩
      · rw [List.concat_eq_append, List.getLastD_concat] at hmark
        rw [List.concat_eq_append, List.dropLast_concat] at hword
        exact ⟨stem, .inr ⟨last, hmark, List.concat_eq_append⟩, hword⟩

instance (token word : Str) : Decidable (Becomes token word) := decidable_of_iff' _ becomes_iff

instance (word : Str) : Decidable (Normal word) := inferInstanceAs (Decidable (_ ∧ _))

/-! ## One token -/

theorem lower_byte : ∀ ch : UInt8,
    let lower := if isupper ch then tolower ch else ch
    isdigit lower = isdigit ch ∧ ispunct lower = ispunct ch ∧ isupper lower = false :=
  forall_byte (by decide +kernel)

theorem not_isdigit_of_ispunct : ∀ ch : UInt8, ispunct ch = true → isdigit ch = false :=
  forall_byte (by decide +kernel)

/-- A lower-cased string is a plain word if there was no digit and no mark in it. -/
theorem normal_toLower {stem : Str} :
    Normal (toLower stem) ↔
      stem ≠ [] ∧ ∀ ch ∈ stem, isdigit ch = false ∧ ispunct ch = false := by
  unfold Normal toLower
  rw [ne_eq, List.map_eq_nil_iff, List.forall_mem_map]
  apply and_congr_right
  intro _
  apply forall₂_congr
  intro ch _
  obtain ⟨hdigit, hpunct, hupper⟩ := lower_byte ch
  rw [hdigit, hpunct, hupper]
  simp only [and_true]

/-- The first check, when the last character is split off. -/
theorem hasDigit_append (stem : Str) (last : UInt8) :
    hasDigit (stem ++ [last]) = false ↔
      (∀ ch ∈ stem ++ [last], isdigit ch = false) ∧ ∀ ch ∈ stem.tail, ispunct ch = false := by
  have hat : ∀ i (hi : i < (stem ++ [last]).length), (stem ++ [last]).getD i 0 = (stem ++ [last])[i] :=
    fun i hi => List.getD_eq_getElem _ _ hi
  unfold hasDigit
  rw [List.any_eq_false]
  simp only [List.mem_range, Bool.or_eq_true, Bool.and_eq_true, decide_eq_true_eq, not_or,
    Bool.not_eq_true, not_and, List.length_append, List.length_singleton, Nat.add_sub_cancel]
  constructor
  · intro h
    refine ⟨fun ch hch => ?_, fun ch hch => ?_⟩
    · obtain ⟨i, hi, rfl⟩ := List.mem_iff_getElem.mp hch
      rw [← hat i hi]
      exact (h i (by simpa using hi)).1
    · obtain ⟨i, hi, rfl⟩ := List.mem_iff_getElem.mp hch
      rw [List.length_tail] at hi
      have hinner := (h (i + 1) (by omega)).2 ⟨by omega, by omega⟩
      rw [hat (i + 1) (by simp; omega), List.getElem_append_left (by omega)] at hinner
      rwa [List.getElem_tail]
  · rintro ⟨hdigit, hpunct⟩ i hi
    refine ⟨?_, fun ⟨hlast, hfirst⟩ => ?_⟩
    · rw [hat i (by simpa using hi)]
      exact hdigit _ (List.getElem_mem _)
    · obtain ⟨j, rfl⟩ := Nat.exists_eq_add_of_le' hfirst
      rw [hat (j + 1) (by simp; omega), List.getElem_append_left hlast, ← List.getElem_tail]
      · exact hpunct _ (List.getElem_mem _)
      · rw [List.length_tail]
        omega

/-- What is left of a token whose last character is split off. -/
def stemOf (stem : Str) (last : UInt8) : Str := if ispunct last then stem else stem ++ [last]

/-- The checks together: what is left is not empty, and has no digit and no mark. -/
theorem checks_iff (stem : Str) (last : UInt8) :
    (hasDigit (stem ++ [last]) = false ∧ ispunct ((stemOf stem last).headD 0) = false ∧
        stemOf stem last ≠ []) ↔ Normal (toLower (stemOf stem last)) := by
  rw [normal_toLower, hasDigit_append]
  unfold stemOf
  by_cases hlast : ispunct last = true
  · have hdigit : isdigit last = false := not_isdigit_of_ispunct last hlast
    rw [if_pos hlast]
    cases stem with
    | nil => simp
    | cons first inner =>
      simp only [List.cons_append, List.forall_mem_cons, List.forall_mem_append, List.tail_cons,
        List.headD_cons, forall_and]
      grind
  · have hpunct : ispunct last = false := Bool.eq_false_iff.mpr hlast
    rw [if_neg hlast]
    cases stem with
    | nil => simp [hpunct]
    | cons first inner =>
      simp only [List.cons_append, List.forall_mem_cons, List.forall_mem_append, List.tail_cons,
        List.headD_cons, forall_and]
      grind

theorem countedWord_append (stopen : List Str) (stem : Str) (last : UInt8) {word : Str} :
    countedWord stopen (stem ++ [last]) = some word ↔
      toLower (stemOf stem last) = word ∧ Normal word ∧ word ∉ stopen := by
  have hstem : (if ispunct ((stem ++ [last]).getLastD 0) then (stem ++ [last]).dropLast
      else stem ++ [last]) = stemOf stem last := by
    rw [List.getLastD_concat, List.dropLast_concat]
    rfl
  unfold countedWord
  rw [hstem]
  constructor
  · intro h
    split at h
    · cases h
    next hdigit =>
    dsimp only at h
    split at h
    · cases h
    next hpunct =>
    split at h
    · cases h
    next hempty =>
    split at h
    · cases h
    next hstop =>
    obtain rfl := Option.some.inj h
    refine ⟨rfl, (checks_iff stem last).mp ⟨?_, ?_, ?_⟩, hstop⟩
    · exact Bool.eq_false_iff.mpr hdigit
    · exact Bool.eq_false_iff.mpr hpunct
    · exact fun h => hempty (List.length_eq_zero_iff.mpr h)
  · rintro ⟨rfl, hnormal, hstop⟩
    obtain ⟨hdigit, hpunct, hempty⟩ := (checks_iff stem last).mpr hnormal
    rw [if_neg (Bool.eq_false_iff.mp hdigit), if_neg (Bool.eq_false_iff.mp hpunct),
      if_neg fun h => hempty (List.length_eq_zero_iff.mp h), if_neg hstop]

/-- There is one way for a token to become a plain word. -/
theorem becomes_append {stem : Str} {last : UInt8} {word : Str} (hnormal : Normal word) :
    Becomes (stem ++ [last]) word ↔ toLower (stemOf stem last) = word := by
  unfold Becomes stemOf
  constructor
  · rintro ⟨stem', hstem | ⟨mark, hmark, hstem⟩, rfl⟩
    · subst hstem
      have hlast := (normal_toLower.mp hnormal).2 last (List.mem_append_right _ List.mem_cons_self)
      rw [if_neg (Bool.eq_false_iff.mp hlast.2)]
    · obtain ⟨rfl, hlast⟩ := List.append_inj' hstem rfl
      obtain rfl := List.head_eq_of_cons_eq hlast
      rw [if_pos hmark]
  · intro h
    by_cases hlast : ispunct last = true
    · rw [if_pos hlast] at h
      exact ⟨stem, .inr ⟨last, hlast, rfl⟩, h⟩
    · rw [if_neg hlast] at h
      exact ⟨stem ++ [last], .inl rfl, h⟩

/-- **What a token is counted as**: the plain word that it becomes, if that is no stop word. -/
theorem countedWord_eq_some {stopen : List Str} {token word : Str} :
    countedWord stopen token = some word ↔ Becomes token word ∧ Normal word ∧ word ∉ stopen := by
  rcases List.eq_nil_or_concat token with rfl | ⟨stem, last, rfl⟩
  · constructor
    · intro h
      cases h
    · rintro ⟨⟨stem, hstem | ⟨mark, _, hstem⟩, rfl⟩, hnormal, _⟩
      · subst hstem
        exact absurd rfl hnormal.1
      · exact absurd hstem.symm (List.append_ne_nil_of_right_ne_nil _ (List.cons_ne_nil _ _))
  · rw [List.concat_eq_append, countedWord_append]
    constructor
    · rintro ⟨hstem, hnormal, hstop⟩
      exact ⟨(becomes_append hnormal).mpr hstem, hnormal, hstop⟩
    · rintro ⟨hbecomes, hnormal, hstop⟩
      exact ⟨(becomes_append hnormal).mp hbecomes, hnormal, hstop⟩

/-! ## All tokens -/

theorem countArticle_eq (stopen : List Str) (dicten : Map Str Nat) (contents : Str) :
    countArticle stopen dicten contents =
      ((words contents).filterMap (countedWord stopen)).foldl bump dicten := by
  unfold countArticle
  rw [words_getlines, List.foldl_filterMap]
  congr 1
  funext dicten word
  cases countedWord stopen word with
  | none => rfl
  | some word => rfl

/-- The loop over the articles counts the words of all tokens that it reads. -/
theorem countArticles_fst (stopen : List Str) (dicten : Map Str Nat) (files : List (Option Str)) :
    (countArticles stopen dicten files).1 =
      ((tokensRead files).filterMap (countedWord stopen)).foldl bump dicten := by
  induction files generalizing dicten with
  | nil => rfl
  | cons file files ih =>
    cases file with
    | none => rfl
    | some contents =>
      rw [countArticles, ih, countArticle_eq]
      unfold tokensRead
      rw [articlesRead, List.flatMap_cons, List.filterMap_append, List.foldl_append]

/-- The words that are counted, each with the number of tokens it is counted for. -/
theorem lookup_buildEnDict (o : Unordered) {m : DicProducer} (hempty : m.dicten = ∅) {word : Str}
    {n : Nat} :
    (m.buildEnDict o).1.dicten.lookup word = some n ↔
      n = (tokensRead m.filesen).countP (fun token => countedWord m.stopen token == some word) ∧
        0 < n := by
  have hdicten : (m.buildEnDict o).1.dicten =
      tally ((tokensRead m.filesen).filterMap (countedWord m.stopen)) := by
    show (countArticles m.stopen m.dicten m.filesen).1 = _
    rw [countArticles_fst, hempty]
    rfl
  rw [hdicten, lookup_tally_eq_some, List.count_filterMap]

/-- **The English dictionary is exact.** When nothing has been counted yet, the words behind the loop
over the articles are the plain words that are no stop words and that a token read becomes, each with
the number of these tokens. -/
theorem dicten_exact (o : Unordered) (m : DicProducer) (hempty : m.dicten = ∅) (word : Str) (n : Nat) :
    (m.buildEnDict o).1.dicten.lookup word = some n ↔
      Normal word ∧ word ∉ m.stopen ∧
        n = (tokensRead m.filesen).countP (fun token => Becomes token word) ∧ 0 < n := by
  rw [lookup_buildEnDict o hempty]
  by_cases hword : Normal word ∧ word ∉ m.stopen
  · have hcount : ∀ token ∈ tokensRead m.filesen,
        (countedWord m.stopen token == some word) = decide (Becomes token word) := by
      intro token _
      rw [Bool.eq_iff_iff, beq_iff_eq, countedWord_eq_some, decide_eq_true_eq]
      exact and_iff_left hword
    rw [List.countP_congr fun token htoken => by rw [hcount token htoken]]
    constructor
    · rintro ⟨hn, hpos⟩
      exact ⟨hword.1, hword.2, hn, hpos⟩
    · rintro ⟨-, -, hn, hpos⟩
      exact ⟨hn, hpos⟩
  · have hnone : (tokensRead m.filesen).countP
        (fun token => countedWord m.stopen token == some word) = 0 := by
      apply List.countP_eq_zero.mpr
      intro token _ h
      exact hword (countedWord_eq_some.mp (beq_iff_eq.mp h)).2
    constructor
    · rintro ⟨rfl, hpos⟩
      omega
    · rintro ⟨hnormal, hstop, -⟩
      exact absurd ⟨hnormal, hstop⟩ hword

/-- An article with its words in several spellings, and one that cannot be opened behind it. -/
theorem dicten_exact_spellings :
    let m := DicProducer.init [some (lit "Tea, tea! 'tea' don't\nTEA; the U2 3"), none] []
      (some (lit "the\n")) none
    (m.buildEnDict .asIs).1.dicten.lookup (lit "tea") = some 3 := by
  intro m
  exact (dicten_exact .asIs m rfl (lit "tea") 3).mpr (by decide)

/-! ## The tables -/

/-- The row of the index belongs to a row of the dictionary whose word has the letter. -/
def IndexRow.Refers (dictEn : List DictRow) (i : IndexRow) : Prop :=
  ∃ d ∈ dictEn, d.id = i.indexId ∧ HasLetter d.word i.character

theorem countArticles_snd (stopen : List Str) (dicten : Map Str Nat) (files : List (Option Str)) :
    (countArticles stopen dicten files).2 = true ↔ ∀ file ∈ files, file.isSome := by
  constructor
  · intro h
    induction files generalizing dicten with
    | nil => exact fun _ h => absurd h List.not_mem_nil
    | cons file files ih =>
      cases file with
      | none => cases h
      | some contents => exact List.forall_mem_cons.mpr ⟨rfl, ih _ h⟩
  · exact fun hopen => countArticles_good hopen dicten

/-- When an article cannot be opened, nothing is inserted. -/
theorem buildEnDict_failed {o : Unordered} {m : DicProducer}
    (hopen : ¬ ∀ file ∈ m.filesen, file.isSome) : (m.buildEnDict o).2 = [] := by
  have hfail : (countArticles m.stopen m.dicten m.filesen).2 = false :=
    Bool.eq_false_iff.mpr fun h => hopen ((countArticles_snd _ _ _).mp h)
  unfold DicProducer.buildEnDict
  dsimp only
  rw [hfail]
  rfl

/-- **The index refers to the dictionary** just when all articles can be opened, or none of those read
before the first that cannot has a token to count. -/
theorem index_refers_iff (o : Unordered) (m : DicProducer) (hempty : m.dicten = ∅) :
    (let (m', inserts) := m.buildEnDict o
     ∀ i ∈ m'.buildIndexen o, i.Refers (autoIncrement inserts)) ↔
      (∀ file ∈ m.filesen, file.isSome) ∨
        ∀ token ∈ tokensRead m.filesen, ∀ word, Becomes token word → Normal word →
          word ∈ m.stopen := by
  show (∀ i ∈ (m.buildEnDict o).1.buildIndexen o, i.Refers (autoIncrement (m.buildEnDict o).2)) ↔ _
  by_cases hopen : ∀ file ∈ m.filesen, file.isSome
  · rw [buildEnDict_inserts hopen]
    refine iff_of_true (fun i hi => ?_) (.inl hopen)
    obtain ⟨entry, hentry, hhas⟩ := (mem_buildIndexen i).mp hi
    exact ⟨⟨i.indexId, entry.1, entry.2⟩, mem_autoIncrement.mpr hentry, rfl, hhas⟩
  · rw [buildEnDict_failed hopen, or_iff_right hopen]
    constructor
    · intro hrefers token htoken word hbecomes hnormal
      by_contra hstop
      -- the word is in `_dicten`, and its first letter in the index
      have hcounted : countedWord m.stopen token = some word :=
        countedWord_eq_some.mpr ⟨hbecomes, hnormal, hstop⟩
      have hlookup := (lookup_buildEnDict o hempty).mpr ⟨rfl, List.countP_pos_iff.mpr
        ⟨token, htoken, beq_iff_eq.mpr hcounted⟩⟩
      obtain ⟨k, hk⟩ := List.mem_iff_getElem?.mp (mem_inOrder (o := o).mpr hlookup)
      obtain ⟨ch, hch⟩ := List.exists_mem_of_ne_nil word hnormal.1
      obtain ⟨d, hd, -⟩ := hrefers ⟨[ch], k + 1⟩ ((mem_buildIndexen _).mpr
        ⟨_, List.mk_mem_zipIdx_iff_le_and_getElem?_sub.mpr ⟨Nat.le_add_left 1 k, hk⟩, ch, hch, rfl⟩)
      exact absurd hd List.not_mem_nil
    · intro hnone i hi
      obtain ⟨entry, hentry, -⟩ := (mem_buildIndexen i).mp hi
      have hlookup := mem_inOrder.mp (List.fst_mem_of_mem_zipIdx hentry)
      obtain ⟨hn, hpos⟩ := (lookup_buildEnDict o hempty).mp hlookup
      rw [hn] at hpos
      obtain ⟨token, htoken, hcounted⟩ := List.countP_pos_iff.mp hpos
      obtain ⟨hbecomes, hnormal, hstop⟩ := countedWord_eq_some.mp (beq_iff_eq.mp hcounted)
      exact absurd (hnone token htoken _ hbecomes hnormal) hstop

/-- Two articles that can be opened. -/
theorem index_refers_iff_two :
    let m := DicProducer.init [some (lit "Green tea"), some (lit "no milk, no sugar")] []
      (some (lit "no\n")) none
    let (m', inserts) := m.buildEnDict .backwards
    ∀ i ∈ m'.buildIndexen .backwards, i.Refers (autoIncrement inserts) := by
  intro m
  have hopen : ∀ file ∈ m.filesen, file.isSome := by decide
  exact (index_refers_iff .backwards m rfl).mpr (.inl hopen)

/-- An article with a word, and one that cannot be opened: the letters of the word are in the index,
and the word is not in the dictionary. -/
theorem index_dangles :
    let m := DicProducer.init [some (lit "tea"), none] [] none none
    let (m', inserts) := m.buildEnDict .asIs
    ¬ ∀ i ∈ m'.buildIndexen .asIs, i.Refers (autoIncrement inserts) := by
  intro m
  show ¬ ∀ i ∈ (m.buildEnDict .asIs).1.buildIndexen .asIs,
    i.Refers (autoIncrement (m.buildEnDict .asIs).2)
  intro hrefers
  have hletter : HasLetter (lit "tea") (lit "t") := ⟨116, by decide, rfl⟩
  obtain ⟨d, hd, -⟩ := hrefers ⟨lit "t", 1⟩
    ((mem_buildIndexen _).mpr ⟨(lit "tea", 1), by decide, hletter⟩)
  rw [buildEnDict_failed (by decide)] at hd
  exact absurd hd List.not_mem_nil

end LightSearch
