import LightSearch.PageLib.PageLibPreprocessor

/-!
# The weights of the inverted index

What `buildInvertIndex` puts beside the id of a page in the posting list of a word: the frequency of
the word on the page times its inverse document frequency, divided by the norm of all such products
of the page (`group_postings`). The rows of the table have these weights as they are printed
(`filter_rows_word`). So the posting list of a word has the ids of the pages that have the word, once
each and in increasing order (`postings_ids`, `postings_sorted`).

The sum under the norm goes through the words of the page in the order of a loop over a hash map, so
for a word it is the same sum whatever the word is (`normSum`).
-/

set_option autoImplicit false

namespace LightSearch

open Cxx HashMap

variable {R : Type}

/-- `w` of a word with that number of tokens on a page, when so many of the pages have the word. -/
def rawWeight (A : Arith R) (size count pages : Nat) : R :=
  A.mul (A.ofNat count) (A.log2 (A.div (A.ofNat size) (A.add (A.ofNat pages) (A.ofNat 1))))

/-- `sum`: the squares of the weights. -/
def normSum (A : Arith R) (weights : List R) : R :=
  weights.foldl (fun sum w => A.add sum (A.mul w w)) (A.ofNat 0)

/-- The words of a page with their `w`, in the order of the loops. -/
def rawWeights (A : Arith R) (o : Unordered) (size : Nat) (pagesCount : Map Str Nat)
    (tokens : List Str) : List R :=
  (wordsOf o (tally tokens)).map fun word =>
    rawWeight A size (tokens.count word) (times pagesCount word)

/-- `w'` of a word: its weight after the division by the norm. -/
def pageWeight (A : Arith R) (o : Unordered) (size : Nat) (pagesCount : Map Str Nat)
    (tokens : List Str) (word : Str) : R :=
  A.div (rawWeight A size (tokens.count word) (times pagesCount word))
    (A.sqrt (normSum A (rawWeights A o size pagesCount tokens)))

theorem mem_wordsOf {o : Unordered} {tokens : List Str} {word : Str} :
    word ∈ wordsOf o (tally tokens) ↔ word ∈ tokens := by
  rw [← List.count_pos_iff, count_wordsOf]
  split
  · next h => exact ⟨fun _ => h, fun _ => Nat.one_pos⟩
  · next h => exact ⟨fun hpos => absurd hpos (Nat.lt_irrefl 0), fun hw => absurd hw h⟩

/-- The weights of a page are the weights of its words. -/
theorem pageWeights_tally (A : Arith R) (o : Unordered) (size : Nat) (pagesCount : Map Str Nat)
    (tokens : List Str) :
    pageWeights A o size pagesCount (tally tokens) =
      (wordsOf o (tally tokens)).map fun word =>
        (word, pageWeight A o size pagesCount tokens word) := by
  -- a word comes with its count
  have hcount : ∀ p ∈ inOrder o (tally tokens), p.2 = tokens.count p.1 := by
    intro p hp
    have hlookup := mem_inOrder.mp hp
    rw [lookup_tally] at hlookup
    split at hlookup
    · exact (Option.some.inj hlookup).symm
    · cases hlookup
  have hraw : ((inOrder o (tally tokens)).map fun p =>
        (p.1, A.mul (A.ofNat p.2) (A.log2 (A.div (A.ofNat size)
          (A.add (A.ofNat (times pagesCount p.1)) (A.ofNat 1)))))) =
      (wordsOf o (tally tokens)).map fun word =>
        (word, rawWeight A size (tokens.count word) (times pagesCount word)) := by
    unfold wordsOf
    rw [List.map_map]
    apply List.map_congr_left
    intro p hp
    rw [hcount p hp]
    rfl
  have hsum : ((wordsOf o (tally tokens)).map fun word =>
        (word, rawWeight A size (tokens.count word) (times pagesCount word))).foldl
        (fun sum w => A.add sum (A.mul w.2 w.2)) (A.ofNat 0) =
      normSum A (rawWeights A o size pagesCount tokens) := by
    unfold normSum rawWeights
    rw [List.foldl_map, List.foldl_map]
  unfold pageWeights
  simp only
  rw [hraw, hsum, List.map_map]
  rfl

/-- One page adds its id and the weight of the word to the posting list of each of its words. -/
theorem group_page (A : Arith R) (o : Unordered) (size : Nat) (pagesCount : Map Str Nat)
    (lib : Map Str (List (Nat × R))) (tokens : List Str) (id : Nat) (word : Str) :
    group (pushAll lib ((pageWeights A o size pagesCount (tally tokens)).map
        fun w => (w.1, (id, w.2)))) word =
      group lib word ++
        if word ∈ tokens then [(id, pageWeight A o size pagesCount tokens word)] else [] := by
  have hone : ∀ ws : List Str, ((ws.map fun w =>
        (w, (id, pageWeight A o size pagesCount tokens w))).filter fun p => p.1 = word).map Prod.snd =
      List.replicate (ws.count word) (id, pageWeight A o size pagesCount tokens word) := by
    intro ws
    induction ws with
    | nil => rfl
    | cons w ws ih =>
      rw [List.map_cons, List.filter_cons, List.count_cons]
      by_cases hw : w = word
      · rw [if_pos (decide_eq_true hw), if_pos (beq_iff_eq.mpr hw), List.replicate_succ, hw]
        exact congrArg (_ :: ·) ih
      · rw [if_neg (fun h => hw (of_decide_eq_true h)), if_neg (fun h => hw (beq_iff_eq.mp h))]
        exact ih
  have hpairs : (pageWeights A o size pagesCount (tally tokens)).map (fun w => (w.1, (id, w.2))) =
      (wordsOf o (tally tokens)).map fun w =>
        (w, (id, pageWeight A o size pagesCount tokens w)) := by
    rw [pageWeights_tally, List.map_map]
    rfl
  rw [group_pushAll, hpairs, hone, count_wordsOf]
  split
  · rfl
  · rfl

theorem group_invertFrom (A : Arith R) (o : Unordered) (size : Nat) (pagesCount : Map Str Nat)
    (tokens : WebPage → List Str) (pages : List WebPage) (i : Nat)
    (lib : Map Str (List (Nat × R))) (word : Str) :
    group (invertFrom A o size pagesCount i lib (pages.map fun page => tally (tokens page))) word =
      group lib word ++ ((pages.zipIdx (i + 1)).filter fun p => word ∈ tokens p.1).map fun p =>
        (p.2, pageWeight A o size pagesCount (tokens p.1) word) := by
  induction pages generalizing i lib with
  | nil => exact (List.append_nil _).symm
  | cons page pages ih =>
    rw [List.map_cons, invertFrom, ih, group_page, List.zipIdx_cons, List.filter_cons,
      List.append_assoc]
    by_cases hw : word ∈ tokens page
    · rw [if_pos hw, if_pos (decide_eq_true hw)]
      rfl
    · rw [if_neg hw, if_neg (fun h => hw (of_decide_eq_true h))]
      rfl

variable {A : Arith R} {o : Unordered} {cut : Str → List Str} {contents : Str}
  {pageLib : List WebPage}

/-- **A posting list with its weights**: the pages of the word in their order, each with the weight of
the word on it. -/
theorem group_postings (A : Arith R) (o : Unordered) (cut : Str → List Str) (contents : Str)
    (pageLib : List WebPage) (word : Str) :
    let index := buildInvertIndex A o cut (some contents) pageLib
    group index.invertIndexLib word =
      ((pageLib.zipIdx 1).filter fun p => word ∈ pageWords cut (words contents) p.1).map fun p =>
        (p.2, pageWeight A o pageLib.length index.pagesCount (pageWords cut (words contents) p.1)
          word) := by
  intro index
  have hcounts := countPages_eq o cut (words contents) pageLib
  have hindex : index.invertIndexLib = invertFrom A o pageLib.length index.pagesCount 0 ∅
      (pageLib.map fun page => tally (pageWords cut (words contents) page)) := by
    show invertFrom A o pageLib.length (countPages o cut (words contents) pageLib).2 0 ∅
      (countPages o cut (words contents) pageLib).1 = _
    rw [show index.pagesCount = (countPages o cut (words contents) pageLib).2 from rfl, hcounts]
  rw [hindex, group_invertFrom]
  rfl

/-- **The rows of a word** in `invertLib`: its pages and its printed weights on them. -/
theorem filter_rows_word (A : Arith R) (o : Unordered) (cut : Str → List Str) (contents : Str)
    (pageLib : List WebPage) (word : Str) :
    let index := buildInvertIndex A o cut (some contents) pageLib
    (index.rows.filter fun row => row.word = word) =
      ((pageLib.zipIdx 1).filter fun p => word ∈ pageWords cut (words contents) p.1).map fun p =>
        ⟨word, p.2, A.printed (pageWeight A o pageLib.length index.pagesCount
          (pageWords cut (words contents) p.1) word)⟩ := by
  intro index
  have hgroup := group_postings A o cut contents pageLib word
  have hrows : index.rows = ((inOrder o index.invertIndexLib).flatMap fun pairFreq =>
      pairFreq.2.map fun elem => (pairFreq.1, elem)).map fun p => ⟨p.1, p.2.1, A.printed p.2.2⟩ := by
    show (inOrder o index.invertIndexLib).flatMap _ = _
    simp only [List.map_flatMap, List.map_map, Function.comp_def]
  rw [hrows, List.filter_map]
  have hsame : ((fun row : InvertRow R => decide (row.word = word)) ∘
      fun p : Str × (Nat × R) => ⟨p.1, p.2.1, A.printed p.2.2⟩) = fun p => decide (p.1 = word) := rfl
  rw [hsame, filter_rows, hgroup, List.map_map, List.map_map]
  rfl

/-- A row of the table, and the page that it is about. -/
theorem mem_rows {row : InvertRow R} :
    row ∈ (buildInvertIndex A o cut (some contents) pageLib).rows ↔
      ∃ p ∈ pageLib.zipIdx 1, row.word ∈ pageWords cut (words contents) p.1 ∧
        row = ⟨row.word, p.2, A.printed (pageWeight A o pageLib.length
          (buildInvertIndex A o cut (some contents) pageLib).pagesCount
          (pageWords cut (words contents) p.1) row.word)⟩ := by
  have hfilter := filter_rows_word A o cut contents pageLib row.word
  have hself : row ∈ (buildInvertIndex A o cut (some contents) pageLib).rows ↔
      row ∈ (buildInvertIndex A o cut (some contents) pageLib).rows.filter
        fun r => r.word = row.word := by
    rw [List.mem_filter]
    exact ⟨fun h => ⟨h, decide_eq_true rfl⟩, And.left⟩
  rw [hself, hfilter, List.mem_map]
  constructor
  · rintro ⟨p, hp, hrow⟩
    obtain ⟨hmem, hword⟩ := List.mem_filter.mp hp
    exact ⟨p, hmem, of_decide_eq_true hword, hrow.symm⟩
  · rintro ⟨p, hmem, hword, hrow⟩
    exact ⟨p, List.mem_filter.mpr ⟨hmem, decide_eq_true hword⟩, hrow.symm⟩

/-! ## The ids of a posting list -/

/-- The ids in the posting list of a word. -/
def postings (lib : Map Str (List (Nat × R))) (word : Str) : List Nat :=
  (group lib word).map Prod.fst

/-- **The posting list of a word** has the numbers of the pages that have it, in their order. -/
theorem postings_ids (A : Arith R) (o : Unordered) (cut : Str → List Str) (contents : Str)
    (pageLib : List WebPage) (word : Str) :
    postings (buildInvertIndex A o cut (some contents) pageLib).invertIndexLib word =
      ((pageLib.zipIdx 1).filter fun p => word ∈ pageWords cut (words contents) p.1).map
        Prod.snd := by
  unfold postings
  rw [group_postings, List.map_map]
  rfl

variable {word : Str}

/-- **Posting lists increase.** -/
theorem postings_sorted :
    (postings (buildInvertIndex A o cut (some contents) pageLib).invertIndexLib word).Pairwise
      (· < ·) := by
  rw [postings_ids]
  have hrange : ((pageLib.zipIdx 1).map Prod.snd).Pairwise (· < ·) := by
    rw [List.zipIdx_map_snd]
    exact List.pairwise_lt_range'
  exact hrange.sublist (List.filter_sublist.map Prod.snd)

/-- **Which pages a posting list has.** -/
theorem mem_postings (hnumbered : Numbered pageLib) {id : Nat} :
    id ∈ postings (buildInvertIndex A o cut (some contents) pageLib).invertIndexLib word ↔
      ∃ page ∈ pageLib, page.docId = id ∧ word ∈ pageWords cut (words contents) page := by
  rw [postings_ids, List.mem_map]
  constructor
  · rintro ⟨p, hp, rfl⟩
    obtain ⟨hmem, hword⟩ := List.mem_filter.mp hp
    exact ⟨p.1, mem_of_zipIdx hmem, hnumbered p hmem, of_decide_eq_true hword⟩
  · rintro ⟨page, hpage, rfl, hword⟩
    have hfst : page ∈ (pageLib.zipIdx 1).map Prod.fst := by rwa [List.zipIdx_map_fst]
    obtain ⟨p, hp, rfl⟩ := List.mem_map.mp hfst
    exact ⟨p, List.mem_filter.mpr ⟨hp, decide_eq_true hword⟩, (hnumbered p hp).symm⟩

/-- **A posting list is as long as the document frequency** that the weights use. -/
theorem length_postings :
    (postings (buildInvertIndex A o cut (some contents) pageLib).invertIndexLib word).length =
      times (buildInvertIndex A o cut (some contents) pageLib).pagesCount word := by
  have hcount : times (buildInvertIndex A o cut (some contents) pageLib).pagesCount word =
      pageLib.countP fun page => word ∈ pageWords cut (words contents) page :=
    times_pagesCount o cut (words contents) pageLib word
  have hfst : pageLib = (pageLib.zipIdx 1).map Prod.fst := (List.zipIdx_map_fst ..).symm
  rw [hcount, postings_ids, List.length_map]
  conv => rhs; rw [hfst, List.countP_map]
  exact List.countP_eq_length_filter.symm

end LightSearch
