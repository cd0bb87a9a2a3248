import LightSearch.PageLib.Weights
import LightSearch.Lib.Run

/-!
# Finding the pages of a query

`getIntersectionId` finds the pages that have every query word by counting: it goes through the rows
of each word, counts how often an id comes up, and keeps the ids that came up once for each word. The
count is right only if no word and id stand in the table twice, and they do not, since a posting list
has an id once (`postings_sorted`). For the same reason `getPageWeight` finds one weight for each
page and word it asks for.

The rows of the table are those that `buildInvertIndex` inserts. The text of an id is its decimal
number, which `stoi` reads back, so the ids are numbers here.
-/

set_option autoImplicit false

namespace LightSearch

open Cxx HashMap

variable {R : Type}

/-- `select webPageId from invertLib where word = '...'`. Words are compared byte by byte, and each of them
fits its column. -/
def selectIds (invertLib : List (InvertRow R)) (word : Str) : List Nat :=
  (invertLib.filter fun row => row.word = word).map (·.webPageId)

/-- `select weight from invertLib where word = '...' and webPageId = ...`, with the words as in
`selectIds`. -/
def selectWeights (invertLib : List (InvertRow R)) (word : Str) (id : Nat) : List R :=
  (invertLib.filter fun row => row.word = word ∧ row.webPageId = id).map (·.weight)

/-- The first loop of `getIntersectionId`: how many rows of the query words have each id. -/
def countRows (invertLib : List (InvertRow R)) (queryWords : List Str) : Map Nat Nat :=
  queryWords.foldl (fun result elem => (selectIds invertLib elem).foldl bump result) ∅

/-- `getIntersectionId`: `_intersectionId` after the ids with as many rows as there are words were
pushed back. -/
def getIntersectionId (o : Unordered) (invertLib : List (InvertRow R)) (queryWords : List Str)
    (intersectionId : List Nat) : List Nat :=
  let result := inOrder o (countRows invertLib queryWords)
  intersectionId ++ (result.filter fun elem => elem.2 = queryWords.length).map Prod.fst

/-- `tmp[0][0]`: the weight in the first row of the answer. -/
def firstWeight (invertLib : List (InvertRow R)) (id : Nat) (word : Str) : Except Fault R :=
  match selectWeights invertLib word id with
  | [] => .error .outOfRange
  | weight :: _ => .ok weight

/-- `getPageWeight`: the weights of the query words for each id, as `_pageWeight` has them. -/
def getPageWeight (invertLib : List (InvertRow R)) (queryWords : List Str)
    (intersectionId : List Nat) : Except Fault (Map Nat (List R)) :=
  intersectionId.foldlM (fun pageWeight id => do
    let weights ← queryWords.mapM (firstWeight invertLib id)
    .ok (pageWeight.insert id weights)) ∅

/-! ## Counting finds the intersection -/

/-- A table where no word and id stand twice. -/
def Unique (invertLib : List (InvertRow R)) : Prop := ∀ word, (selectIds invertLib word).Nodup

theorem countRows_eq (invertLib : List (InvertRow R)) (queryWords : List Str) :
    countRows invertLib queryWords = tally (queryWords.flatMap (selectIds invertLib)) := by
  unfold countRows tally
  rw [List.foldl_flatMap]

/-- In a table without repetitions an id comes up for as many words as have it. -/
theorem count_selectIds {invertLib : List (InvertRow R)} (h : Unique invertLib)
    (queryWords : List Str) (id : Nat) :
    (queryWords.flatMap (selectIds invertLib)).count id =
      queryWords.countP fun word => id ∈ selectIds invertLib word := by
  induction queryWords with
  | nil => rfl
  | cons word queryWords ih =>
    rw [List.flatMap_cons, List.count_append, ih, List.countP_cons]
    by_cases hid : id ∈ selectIds invertLib word
    · rw [List.count_eq_one_of_mem (h word) hid, if_pos (decide_eq_true hid)]
      omega
    · rw [List.count_eq_zero_of_not_mem hid, if_neg (fun h => hid (of_decide_eq_true h))]
      omega

/-- An id that has as many rows for some words as there are words. -/
def AsMany (invertLib : List (InvertRow R)) (queryWords : List Str) (id : Nat) : Prop :=
  id ∈ queryWords.flatMap (selectIds invertLib) ∧
    (queryWords.flatMap (selectIds invertLib)).count id = queryWords.length

/-- What the counting keeps. -/
theorem mem_getIntersectionId {o : Unordered} {invertLib : List (InvertRow R)} {queryWords : List Str}
    {id : Nat} : id ∈ getIntersectionId o invertLib queryWords [] ↔ AsMany invertLib queryWords id := by
  unfold getIntersectionId AsMany
  rw [List.nil_append, List.mem_map, countRows_eq]
  constructor
  · rintro ⟨⟨id', n⟩, hmem, rfl⟩
    obtain ⟨hmem, hn⟩ := List.mem_filter.mp hmem
    rw [mem_inOrder, lookup_tally] at hmem
    split at hmem
    · next hid => exact ⟨hid, (Option.some.inj hmem).trans (of_decide_eq_true hn)⟩
    · cases hmem
  · rintro ⟨hid, hcount⟩
    refine ⟨(id, queryWords.length), List.mem_filter.mpr ⟨?_, decide_eq_true rfl⟩, rfl⟩
    rw [mem_inOrder, lookup_tally, if_pos hid, hcount]

/-- **The intersection.** In a table without repetitions the counting keeps exactly the ids that every
query word has, and each of them once. -/
theorem intersection_exact {invertLib : List (InvertRow R)} (h : Unique invertLib) (o : Unordered)
    {queryWords : List Str} (hne : queryWords ≠ []) :
    (getIntersectionId o invertLib queryWords []).Nodup ∧
      ∀ id, id ∈ getIntersectionId o invertLib queryWords [] ↔
        ∀ word ∈ queryWords, id ∈ selectIds invertLib word := by
  constructor
  · unfold getIntersectionId
    rw [List.nil_append]
    exact (nodup_inOrder o _).sublist (List.filter_sublist.map Prod.fst)
  · intro id
    have hall : (∀ word ∈ queryWords, id ∈ selectIds invertLib word) ↔
        (queryWords.flatMap (selectIds invertLib)).count id = queryWords.length := by
      rw [count_selectIds h, List.countP_eq_length]
      simp only [decide_eq_true_eq]
    rw [mem_getIntersectionId, hall]
    refine ⟨And.right, fun hcount => ⟨?_, hcount⟩⟩
    -- the id comes up, since there is a query word
    apply List.count_pos_iff.mp
    rw [hcount]
    exact List.length_pos_of_ne_nil hne

/-- In a table without repetitions a word and an id that stand in it have one weight. -/
theorem selectWeights_unique {invertLib : List (InvertRow R)} (h : Unique invertLib) {word : Str}
    {id : Nat} (hid : id ∈ selectIds invertLib word) :
    ∃ weight, selectWeights invertLib word id = [weight] := by
  have hone : ∀ rows : List (InvertRow R), (rows.map (·.webPageId)).Nodup →
      id ∈ rows.map (·.webPageId) →
      ∃ weight, (rows.filter fun row => row.webPageId = id).map (·.weight) = [weight] := by
    intro rows
    induction rows with
    | nil => exact fun _ hmem => absurd hmem List.not_mem_nil
    | cons row rows ih =>
      intro hnodup hmem
      obtain ⟨hrow, hrows⟩ := List.nodup_cons.mp hnodup
      rw [List.filter_cons]
      rcases List.mem_cons.mp hmem with rfl | hmem
      · have hrest : (rows.filter fun r => r.webPageId = row.webPageId) = [] := by
          apply List.filter_eq_nil_iff.mpr
          intro r hr heq
          apply hrow
          show row.webPageId ∈ rows.map (·.webPageId)
          rw [← of_decide_eq_true heq]
          exact List.mem_map_of_mem hr
        rw [if_pos (decide_eq_true rfl), hrest]
        exact ⟨row.weight, rfl⟩
      · have hne : row.webPageId ≠ id := by
          rintro rfl
          exact hrow hmem
        rw [if_neg (fun h => hne (of_decide_eq_true h))]
        exact ih hrows hmem
  obtain ⟨weight, hweight⟩ := hone _ (h word) hid
  refine ⟨weight, ?_⟩
  rw [← hweight, List.filter_filter]
  unfold selectWeights
  congr 1
  apply List.filter_congr
  intro row _
  rw [Bool.decide_and, Bool.and_comm]

/-- When every lookup finds a row, `getPageWeight` does not fault. -/
theorem getPageWeight_ok {invertLib : List (InvertRow R)} {queryWords : List Str}
    {intersectionId : List Nat}
    (h : ∀ id ∈ intersectionId, ∀ word ∈ queryWords,
      ∃ weight, selectWeights invertLib word id = [weight]) :
    ∃ pageWeight, getPageWeight invertLib queryWords intersectionId = .ok pageWeight := by
  have hpage : ∀ (pageWeight : Map Nat (List R)) (id : Nat), (∃ pageWeight', (do
        let weights ← queryWords.mapM (firstWeight invertLib id)
        Except.ok (pageWeight.insert id weights)) = Except.ok pageWeight') ↔
      ∀ word ∈ queryWords, ∃ weight, firstWeight invertLib id word = .ok weight := by
    intro pageWeight id
    rw [Except.exists_bind_ok_of_total fun weights => ⟨_, rfl⟩, Except.exists_mapM_ok]
  apply (Run.exists_run_ok hpage).mpr
  intro id hid word hword
  obtain ⟨weight, hweight⟩ := h id hid word hword
  exact ⟨weight, by rw [firstWeight, hweight]⟩

/-! ## The index and the query together -/

variable {A : Arith R} {o : Unordered} {cut : Str → List Str} {contents : Str}
  {pageLib : List WebPage}

/-- The ids of a word in the table of the index are its postings. -/
theorem selectIds_rows (word : Str) :
    selectIds (buildInvertIndex A o cut (some contents) pageLib).rows word =
      postings (buildInvertIndex A o cut (some contents) pageLib).invertIndexLib word := by
  rw [selectIds, filter_rows_word, postings_ids, List.map_map]
  rfl

/-- The table of the index has no word and id twice. -/
theorem unique_rows (A : Arith R) (o : Unordered) (cut : Str → List Str) (contents : Str)
    (pageLib : List WebPage) : Unique (buildInvertIndex A o cut (some contents) pageLib).rows := by
  intro word
  rw [selectIds_rows]
  exact postings_sorted.imp fun h => Nat.ne_of_lt h

/-- **The inverted index is exact.** With the ids of `createXml`, the posting list of a word increases,
has the id of a page once when the page has the word and the index does not filter it out, and not
at all otherwise, and is as long as the document frequency that the weights use. And for words that
the index does not filter out, at least one, the query finds exactly the ids of the pages that have
all of them, each once, and one weight for each of these ids and words. -/
theorem invertIndex_exact (A : Arith R) (o o' : Unordered) (cut : Str → List Str) (contents : Str)
    (pages : List WebPage) :
    let pageLib := (createXml pages).1
    let index := buildInvertIndex A o cut (some contents) pageLib
    (∀ word,
      (postings index.invertIndexLib word).Pairwise (· < ·) ∧
      (∀ id, (postings index.invertIndexLib word).count id =
        if (∃ page ∈ pageLib, page.docId = id ∧ word ∈ cut page.getDoc) ∧
          Indexed (words contents) word then 1 else 0) ∧
      (postings index.invertIndexLib word).length = times index.pagesCount word) ∧
    ∀ queryWords : List Str, queryWords ≠ [] →
      (∀ word ∈ queryWords, Indexed (words contents) word) →
      (getIntersectionId o' index.rows queryWords []).Nodup ∧
      (∀ id, id ∈ getIntersectionId o' index.rows queryWords [] ↔
        ∃ page ∈ pageLib, page.docId = id ∧ ∀ word ∈ queryWords, word ∈ cut page.getDoc) ∧
      (∀ id ∈ getIntersectionId o' index.rows queryWords [], ∀ word ∈ queryWords,
        ∃ weight, selectWeights index.rows word id = [weight]) ∧
      ∃ pageWeight, getPageWeight index.rows queryWords
        (getIntersectionId o' index.rows queryWords []) = .ok pageWeight := by
  intro pageLib index
  have hnumbered : Numbered pageLib := numbered_createXml pages
  constructor
  · intro word
    refine ⟨postings_sorted, fun id => ?_, length_postings⟩
    have hnodup : (postings index.invertIndexLib word).Nodup :=
      postings_sorted.imp fun h => Nat.ne_of_lt h
    have hmem : id ∈ postings index.invertIndexLib word ↔
        (∃ page ∈ pageLib, page.docId = id ∧ word ∈ cut page.getDoc) ∧
          Indexed (words contents) word := by
      rw [mem_postings hnumbered]
      simp only [mem_pageWords]
      constructor
      · rintro ⟨page, hpage, hid, hword, hindexed⟩
        exact ⟨⟨page, hpage, hid, hword⟩, hindexed⟩
      · rintro ⟨⟨page, hpage, hid, hword⟩, hindexed⟩
        exact ⟨page, hpage, hid, hword, hindexed⟩
    split
    · next h => exact List.count_eq_one_of_mem hnodup (hmem.mpr h)
    · next h => exact List.count_eq_zero_of_not_mem fun hid => h (hmem.mp hid)
  · intro queryWords hne hindexed
    obtain ⟨hnodup, hmem⟩ := intersection_exact (unique_rows A o cut contents pageLib) o' hne
    have hone : ∀ id ∈ getIntersectionId o' index.rows queryWords [], ∀ word ∈ queryWords,
        ∃ weight, selectWeights index.rows word id = [weight] := fun id hid word hword =>
      selectWeights_unique (unique_rows A o cut contents pageLib) ((hmem id).mp hid word hword)
    refine ⟨hnodup, fun id => ?_, hone, getPageWeight_ok hone⟩
    rw [hmem]
    simp only [selectIds_rows, mem_postings hnumbered, mem_pageWords]
    constructor
    · intro h
      -- the page with the id is the same for all words: the ids are the places of the pages
      obtain ⟨word, hword⟩ := List.exists_mem_of_ne_nil queryWords hne
      obtain ⟨page, hpage, hid, -⟩ := h word hword
      refine ⟨page, hpage, hid, fun word' hword' => ?_⟩
      obtain ⟨page', hpage', hid', hcut, -⟩ := h word' hword'
      rwa [hnumbered.eq_of_docId hpage' hpage (hid'.trans hid.symm)] at hcut
    · rintro ⟨page, hpage, hid, hall⟩ word hword
      exact ⟨page, hpage, hid, hall word hword, hindexed word hword⟩

/-- Two pages of words, one of them with both query words. -/
theorem invertIndex_exact_two :
    let pages : List WebPage :=
      [⟨0, lit "one", lit "http://one", lit "red green the green"⟩,
        ⟨0, lit "two", lit "http://two", lit "green blue"⟩]
    let pageLib := (createXml pages).1
    let index := buildInvertIndex doubles .backwards words (some (lit "the\n")) pageLib
    let queryWords := [lit "green", lit "red"]
    (queryWords ≠ [] ∧ ∀ word ∈ queryWords, Indexed (words (lit "the\n")) word) ∧
    (getIntersectionId .asIs index.rows queryWords []).Nodup ∧
    (∀ id, id ∈ getIntersectionId .asIs index.rows queryWords [] ↔
      ∃ page ∈ pageLib, page.docId = id ∧ ∀ word ∈ queryWords, word ∈ words page.getDoc) ∧
    (∀ id ∈ getIntersectionId .asIs index.rows queryWords [], ∀ word ∈ queryWords,
      ∃ weight, selectWeights index.rows word id = [weight]) ∧
    ∃ pageWeight, getPageWeight index.rows queryWords
      (getIntersectionId .asIs index.rows queryWords []) = .ok pageWeight := by
  intro pages pageLib index queryWords
  have hne : queryWords ≠ [] := List.cons_ne_nil _ _
  have hindexed : ∀ word ∈ queryWords, Indexed (words (lit "the\n")) word := by decide
  exact ⟨⟨hne, hindexed⟩,
    (invertIndex_exact doubles .backwards .asIs words (lit "the\n") pages).2 queryWords hne hindexed⟩

end LightSearch
