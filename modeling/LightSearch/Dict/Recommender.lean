import Std.Data.TreeSet
import LightSearch.Lib.Run
import LightSearch.Lib.Utf8
import LightSearch.Utility.Query

/-!
# The candidates of a recommender

The three recommenders begin in the same way: they send one query for each character of the text,
and put the words and frequencies of the answers into one `set<pair<string, int>>`. What they do with
this set does not depend on the language.

When no query fails, the set has exactly the words that a row of the index joins to one of the
characters (`gather_ok`). A query for a character that cannot stand between quotes has no result, and
the program uses a null pointer (`gatherOne_not_quotable`).

The characters are the bytes of an English text, and `cutString` cuts the others by the lead bytes of
UTF-8: from valid UTF-8 it returns each character once (`cutString_encode`).
-/

set_option autoImplicit false

namespace LightSearch

open Cxx Run

def toLower (str : Str) : Str := str.map fun ch => if isupper ch then tolower ch else ch

/-- `operator<` of `pair<string, int>`: the strings are compared first. -/
def comparePair : Str × Int → Str × Int → Ordering :=
  compareLex (compareOn Prod.fst) (compareOn Prod.snd)

instance : Std.TransCmp comparePair := inferInstanceAs (Std.TransCmp (compareLex _ _))

instance : Std.LawfulEqCmp comparePair where
  eq_of_compare {a b} h := by
    unfold comparePair compareLex at h
    rw [Ordering.then_eq_eq] at h
    exact Prod.ext (Std.LawfulEqCmp.eq_of_compare h.1) (Std.LawfulEqCmp.eq_of_compare h.2)

/-- `set<pair<string, int>>`. -/
abbrev QueryRes := Std.TreeSet (Str × Int) comparePair

/-- The query of `EnRecommender` for one letter. -/
def enSelect : Select where
  before := lit "SELECT word, frequency FROM dictEn, indexEn WHERE indexEn.alphabet = "
  after := lit " AND dictEn.id = indexEn.indexId;"

/-- The query of `ChRecommender` for one character. -/
def cnSelect : Select where
  before := lit "SELECT dictCn.word, frequency FROM dictCn, indexCn WHERE indexCn.word = "
  after := lit " AND dictCn.id = indexCn.indexId;"

/-- `queryRes.insert(std::make_pair(elem[0], atoi(elem[1].c_str())))`. -/
def insertRow (queryRes : QueryRes) (elem : List Str) : Except Fault QueryRes :=
  match elem with
  | word :: frequency :: _ => .ok (queryRes.insert (word, atoi frequency))
  | _ => .error .danglingIterator

/-- The body of the loop over the characters: one query, and all rows of its answer. -/
def gatherOne (select : Select) (tables : DictTables) (queryRes : QueryRes) (str : Str) :
    Except Fault QueryRes := do
  let tempRes ← doQuery select tables.join (select.sql str)
  run insertRow queryRes tempRes

/-- The loop over the characters. -/
def gather (select : Select) (tables : DictTables) (singleChars : List Str) : Except Fault QueryRes :=
  run (gatherOne select tables) ∅ singleChars

/-- `queryRes` of `EnRecommender::recommender`: one query for each byte. -/
def enQueryRes (tables : DictTables) (queryString : Str) : Except Fault QueryRes :=
  gather enSelect tables (queryString.map fun ch => [ch])

/-- The length of a character, from its first byte. -/
def charLen (byte : UInt8) : Nat :=
  if 0xFC ≤ byte then 6
  else if 0xF8 ≤ byte then 5
  else if 0xF0 ≤ byte then 4
  else if 0xE0 ≤ byte then 3
  else if 0xC0 ≤ byte then 2
  else 1

/-- The loop of `cutString`, when `i` has to advance over so many bytes before the next character.
An `i` behind the end of the string is not the end of the loop, and `substr` throws there. -/
def cutFrom : Nat → Str → Except Fault (List Str)
  | 0, [] => .ok []
  | _ + 1, [] => .error .outOfRange
  | 0, byte :: chstr => do
    let output ← cutFrom (charLen byte - 1) chstr
    .ok ((byte :: chstr).take (charLen byte) :: output)
  | len + 1, _ :: chstr => cutFrom len chstr

/-- `cutString`: the characters are collected in a `set<string>`. -/
def cutString (chstr : Str) : Except Fault (List Str) := do
  let output ← cutFrom 0 chstr
  .ok (Std.TreeSet.ofList output compare).toList

/-- `queryRes` of `ChRecommender::recommender`: one query for each character. -/
def chQueryRes (tables : DictTables) (queryWord : Str) : Except Fault QueryRes := do
  let singleChars ← cutString queryWord
  gather cnSelect tables singleChars

/-- The body of the loop of `MixedRecommender`: a character of one byte is looked up in the English
tables. -/
def mixedOne (en cn : DictTables) (queryRes : QueryRes) (str : Str) : Except Fault QueryRes :=
  if str.length = 1 then gatherOne enSelect en queryRes str else gatherOne cnSelect cn queryRes str

/-- `queryRes` of `MixedRecommender::recommender`. -/
def mixedQueryRes (en cn : DictTables) (queryString : Str) : Except Fault QueryRes := do
  let singleChars ← cutString queryString
  run (mixedOne en cn) ∅ singleChars

theorem enSelect_wellFormed : enSelect.WellFormed := by
  constructor <;> decide

theorem cnSelect_wellFormed : cnSelect.WellFormed := by
  constructor <;> decide

/-- A word with a frequency has a character: a row of the index has the character and the id of a row
of the dictionary with the word and the frequency. -/
def DictTables.Joins (tables : DictTables) (character word : Str) (frequency : Nat) : Prop :=
  ∃ d ∈ tables.dict, d.word = word ∧ d.frequency = frequency ∧
    ∃ i ∈ tables.index, i.character = character ∧ d.id = i.indexId

/-- The rows of a join. -/
theorem mem_join {tables : DictTables} {character : Str} {elem : List Str} :
    elem ∈ tables.join character ↔
      ∃ word frequency, elem = [word, decimal frequency] ∧ tables.Joins character word frequency := by
  unfold DictTables.join DictTables.Joins
  simp only [List.mem_flatMap, List.mem_map, List.mem_filter, decide_eq_true_eq]
  constructor
  · rintro ⟨d, hd, i, ⟨hi, hcharacter, hid⟩, rfl⟩
    exact ⟨d.word, d.frequency, rfl, d, hd, rfl, rfl, i, hi, hcharacter, hid⟩
  · rintro ⟨word, frequency, rfl, d, hd, rfl, rfl, i, hi, hcharacter, hid⟩
    exact ⟨d, hd, i, ⟨hi, hcharacter, hid⟩, rfl⟩

/-- Rows of two columns go into the set, the second column as a number. -/
theorem insertRows_ok (rows : List (List Str))
    (hrows : ∀ elem ∈ rows, ∃ word text, elem = [word, text]) (queryRes : QueryRes) :
    ∃ queryRes', run insertRow queryRes rows = .ok queryRes' ∧
      ∀ p, p ∈ queryRes' ↔
        p ∈ queryRes ∨ ∃ word text, [word, text] ∈ rows ∧ p = (word, atoi text) := by
  induction rows generalizing queryRes with
  | nil =>
    refine ⟨queryRes, rfl, fun p => ⟨Or.inl, ?_⟩⟩
    rintro (hp | ⟨_, _, hmem, _⟩)
    · exact hp
    · exact absurd hmem List.not_mem_nil
  | cons elem rows ih =>
    obtain ⟨word, text, rfl⟩ := hrows elem List.mem_cons_self
    obtain ⟨queryRes', hrun, hmem⟩ :=
      ih (fun e he => hrows e (List.mem_cons_of_mem _ he)) (queryRes.insert (word, atoi text))
    refine ⟨queryRes', hrun, fun p => ?_⟩
    rw [hmem, Std.TreeSet.mem_insert, Std.LawfulEqCmp.compare_eq_iff_eq]
    constructor
    · rintro ((rfl | hp) | ⟨w, t, hrow, rfl⟩)
      · exact .inr ⟨word, text, List.mem_cons_self, rfl⟩
      · exact .inl hp
      · exact .inr ⟨w, t, List.mem_cons_of_mem _ hrow, rfl⟩
    · rintro (hp | ⟨w, t, hrow, rfl⟩)
      · exact .inl (.inr hp)
      · rcases List.mem_cons.mp hrow with heq | hrow
        · obtain ⟨rfl, rfl⟩ : w = word ∧ t = text := by simpa using heq
          exact .inl (.inl rfl)
        · exact .inr ⟨w, t, hrow, rfl⟩

variable {select : Select} (tables : DictTables)

/-- One query adds the words that the index joins to its character. -/
theorem gatherOne_ok (hselect : select.WellFormed) {str : Str} (h : ∀ ch ∈ str, Quotable ch)
    (queryRes : QueryRes) :
    ∃ queryRes', gatherOne select tables queryRes str = .ok queryRes' ∧
      ∀ p, p ∈ queryRes' ↔
        p ∈ queryRes ∨ ∃ word frequency, tables.Joins str word frequency ∧
          p = (word, (frequency : Int)) := by
  have hrows : ∀ elem ∈ tables.join str, ∃ word text, elem = [word, text] := by
    intro elem helem
    obtain ⟨word, frequency, rfl, -⟩ := mem_join.mp helem
    exact ⟨word, decimal frequency, rfl⟩
  obtain ⟨queryRes', hrun, hmem⟩ := insertRows_ok (tables.join str) hrows queryRes
  refine ⟨queryRes', ?_, fun p => ?_⟩
  · unfold gatherOne
    rw [doQuery_quotable hselect tables.join h, Except.ok_bind, hrun]
  · rw [hmem]
    apply or_congr_right
    constructor
    · rintro ⟨word, text, hrow, rfl⟩
      obtain ⟨word', frequency, heq, hjoins⟩ := mem_join.mp hrow
      obtain ⟨rfl, rfl⟩ : word = word' ∧ text = decimal frequency := by simpa using heq
      exact ⟨word, frequency, hjoins, by rw [atoi_decimal]⟩
    · rintro ⟨word, frequency, hjoins, rfl⟩
      exact ⟨word, decimal frequency, mem_join.mpr ⟨word, frequency, rfl, hjoins⟩,
        by rw [atoi_decimal]⟩

/-- The words that some tables join to their characters: what the loop over the characters adds. -/
def Looked (tables : Str → DictTables) (singleChars : List Str) (p : Str × Int) : Prop :=
  ∃ str ∈ singleChars, ∃ word frequency, (tables str).Joins str word frequency ∧
    p = (word, (frequency : Int))

/-- A loop adds the words of each of its characters when its steps do. -/
theorem lookups_ok {step : QueryRes → Str → Except Fault QueryRes} {tables : Str → DictTables}
    {singleChars : List Str} (hone : ∀ str ∈ singleChars, ∀ queryRes, ∃ queryRes',
      step queryRes str = .ok queryRes' ∧ ∀ p, p ∈ queryRes' ↔
        p ∈ queryRes ∨ ∃ word frequency, (tables str).Joins str word frequency ∧
          p = (word, (frequency : Int))) (queryRes : QueryRes) :
    ∃ queryRes', run step queryRes singleChars = .ok queryRes' ∧
      ∀ p, p ∈ queryRes' ↔ p ∈ queryRes ∨ Looked tables singleChars p := by
  unfold Looked
  induction singleChars generalizing queryRes with
  | nil =>
    refine ⟨queryRes, rfl, fun p => ⟨Or.inl, ?_⟩⟩
    rintro (hp | ⟨_, hmem, _⟩)
    · exact hp
    · exact absurd hmem List.not_mem_nil
  | cons str singleChars ih =>
    obtain ⟨queryRes₁, hstep, hmem₁⟩ := hone str List.mem_cons_self queryRes
    obtain ⟨queryRes₂, hrun, hmem₂⟩ :=
      ih (fun s hs => hone s (List.mem_cons_of_mem _ hs)) queryRes₁
    refine ⟨queryRes₂, ?_, fun p => ?_⟩
    · rw [run_cons, hstep, Except.ok_bind, hrun]
    · rw [hmem₂, hmem₁, or_assoc]
      simp only [List.mem_cons, exists_eq_or_imp]

/-- **The candidates are what the index joins to the characters**, when every character can stand
between quotes as it is. -/
theorem gather_ok (hselect : select.WellFormed) {singleChars : List Str}
    (h : ∀ str ∈ singleChars, ∀ ch ∈ str, Quotable ch) :
    ∃ queryRes, gather select tables singleChars = .ok queryRes ∧
      ∀ word n, (word, n) ∈ queryRes ↔
        ∃ str ∈ singleChars, ∃ frequency, tables.Joins str word frequency ∧
          n = (frequency : Int) := by
  have hone := fun str hstr => gatherOne_ok tables hselect (h str hstr)
  obtain ⟨queryRes, hrun, hmem⟩ := lookups_ok hone ∅
  refine ⟨queryRes, hrun, fun word n => ?_⟩
  rw [hmem]
  constructor
  · rintro (hempty | ⟨str, hstr, word', frequency, hjoins, heq⟩)
    · exact absurd hempty Std.TreeSet.not_mem_emptyc
    · obtain ⟨rfl, rfl⟩ := Prod.mk.inj heq
      exact ⟨str, hstr, frequency, hjoins, rfl⟩
  · rintro ⟨str, hstr, frequency, hjoins, rfl⟩
    exact .inr ⟨str, hstr, word, frequency, hjoins, rfl⟩

/-- A query for a character that cannot stand between quotes ends with a fault. -/
theorem gatherOne_not_quotable (hselect : select.WellFormed) (queryRes : QueryRes) {ch : UInt8}
    (hch : ¬ Quotable ch) : gatherOne select tables queryRes [ch] = .error .nullPointer := by
  unfold gatherOne
  rw [doQuery_not_quotable hselect tables.join hch]
  rfl

/-- A step of the mixed loop adds the words that the tables for its character join to it. -/
theorem mixedOne_ok (en cn : DictTables) {str : Str} (h : AllQuotable str) (queryRes : QueryRes) :
    ∃ queryRes', mixedOne en cn queryRes str = .ok queryRes' ∧
      ∀ p, p ∈ queryRes' ↔ p ∈ queryRes ∨
        ∃ word frequency, (if str.length = 1 then en else cn).Joins str word frequency ∧
          p = (word, (frequency : Int)) := by
  unfold mixedOne
  split
  · exact gatherOne_ok en enSelect_wellFormed h queryRes
  · exact gatherOne_ok cn cnSelect_wellFormed h queryRes

/-! ## Cutting by lead bytes -/

theorem charLen_lead {size : Nat} (hsize : size = 1 ∨ size = 2 ∨ size = 3 ∨ size = 4) {byte : UInt8}
    (h : Utf8.Lead size byte) : charLen byte = size := by
  have hcases := Utf8.lead_cases h
  unfold charLen
  simp only [UInt8.le_iff_toNat_le, UInt8.reduceToNat]
  split_ifs <;> omega

theorem cutFrom_skip (tail chstr : Str) : cutFrom tail.length (tail ++ chstr) = cutFrom 0 chstr := by
  induction tail with
  | nil => rfl
  | cons ch tail ih => exact ih

/-- Valid UTF-8 is cut into its characters. -/
theorem cutFrom_encode (cs : List Char) :
    cutFrom 0 (Utf8.encode cs) = .ok (cs.map String.utf8EncodeChar) := by
  induction cs with
  | nil => rfl
  | cons c cs ih =>
    obtain ⟨lead, tail, hc, hlead, hsize, -⟩ := Utf8.encodeChar_shape c
    have hlen : charLen lead = tail.length + 1 := by
      rw [charLen_lead c.utf8Size_eq hlead, hsize]
    rw [Utf8.encode_cons, hc, List.cons_append, cutFrom, hlen, Nat.add_sub_cancel, cutFrom_skip, ih,
      Except.ok_bind, List.take_succ_cons, List.take_left, List.map_cons, hc]

/-- **`cutString` returns the characters of valid UTF-8.** -/
theorem cutString_encode (cs : List Char) :
    ∃ singleChars, cutString (Utf8.encode cs) = .ok singleChars ∧
      ∀ str, str ∈ singleChars ↔ ∃ c ∈ cs, String.utf8EncodeChar c = str := by
  unfold cutString
  rw [cutFrom_encode, Except.ok_bind]
  refine ⟨_, rfl, fun str => ?_⟩
  rw [Std.TreeSet.mem_toList, Std.TreeSet.mem_ofList, List.contains_iff_mem, List.mem_map]

/-! ## Looking up the characters of a query -/

/-- A query whose characters can stand between quotes is looked up by them. -/
theorem cutLookups_ok {step : QueryRes → Str → Except Fault QueryRes} {tables : Str → DictTables}
    (hone : ∀ str, AllQuotable str → ∀ queryRes, ∃ queryRes', step queryRes str = .ok queryRes' ∧
      ∀ p, p ∈ queryRes' ↔ p ∈ queryRes ∨
        ∃ word frequency, (tables str).Joins str word frequency ∧ p = (word, (frequency : Int)))
    {cs : List Char} (h : AllQuotable (Utf8.encode cs)) :
    ∃ queryRes, (cutString (Utf8.encode cs) >>= run step ∅) = .ok queryRes ∧
      ∀ p, p ∈ queryRes ↔ Looked tables (cs.map String.utf8EncodeChar) p := by
  obtain ⟨singleChars, hcut, hchars⟩ := cutString_encode cs
  have hquotable : ∀ str ∈ singleChars, AllQuotable str := by
    intro str hstr ch hch
    obtain ⟨c, hc, rfl⟩ := (hchars str).mp hstr
    exact h ch (List.mem_flatMap.mpr ⟨c, hc, hch⟩)
  have hsteps := fun str hstr => hone str (hquotable str hstr)
  obtain ⟨queryRes, hrun, hmem⟩ := lookups_ok hsteps ∅
  refine ⟨queryRes, by rw [hcut, Except.ok_bind, hrun], fun p => ?_⟩
  rw [hmem, or_iff_right Std.TreeSet.not_mem_emptyc]
  unfold Looked
  simp only [hchars, List.mem_map]

/-- A byte that cannot stand between quotes is cut as a character of its own. -/
theorem mem_cutString_of_not_quotable {cs : List Char} {singleChars : List Str}
    (hcut : cutString (Utf8.encode cs) = .ok singleChars) {ch : UInt8} (hch : ch ∈ Utf8.encode cs)
    (hquotable : ¬ Quotable ch) : [ch] ∈ singleChars := by
  obtain ⟨c, hc, hch⟩ := List.mem_flatMap.mp hch
  obtain ⟨singleChars', hcut', hmem⟩ := cutString_encode cs
  obtain rfl := Except.ok.inj (hcut'.symm.trans hcut)
  have hstr : String.utf8EncodeChar c ∈ singleChars' := (hmem _).mpr ⟨c, hc, rfl⟩
  by_cases hsize : c.utf8Size = 1
  · rw [String.utf8EncodeChar_eq_singleton hsize] at hstr hch
    obtain rfl := List.mem_singleton.mp hch
    exact hstr
  · exact absurd (quotable_of_not_ascii (Utf8.le_of_mem_encodeChar hsize hch)) hquotable

/-- A query that was looked up has no character that cannot stand between quotes. -/
theorem quotable_of_cutLookups {step : QueryRes → Str → Except Fault QueryRes}
    (hfail : ∀ queryRes ch, ¬ Quotable ch → step queryRes [ch] = .error .nullPointer)
    {cs : List Char} {queryRes : QueryRes}
    (h : (cutString (Utf8.encode cs) >>= run step ∅) = .ok queryRes) :
    AllQuotable (Utf8.encode cs) := by
  intro ch hch
  by_contra hquotable
  obtain ⟨singleChars, hcut, hrun⟩ := Except.bind_eq_ok.mp h
  obtain ⟨queryRes₁, queryRes₂, hone⟩ :=
    run_step hrun (mem_cutString_of_not_quotable hcut hch hquotable)
  rw [hfail _ _ hquotable] at hone
  cases hone

end LightSearch
