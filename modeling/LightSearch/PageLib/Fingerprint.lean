import LightSearch.Cppjieba.KeywordExtractor
import LightSearch.Lib.Majority
import LightSearch.PageLib.Jenkins
import LightSearch.PageLib.RedundantPages
import LightSearch.PageLib.RssReader

/-!
# The fingerprint of a page

`make` takes the five heaviest keywords of a text and hashes them. In each of the 64 bits a keyword counts
with its weight, for a one or against it, and the bit is set when the sum is positive.

So, as far as the sums are exact, a bit says which keywords weigh more, those that have it or the others
(`getLsbD_make`). Texts whose keywords weigh about the same have near fingerprints
(`make_isEqual_of_change`).

A text without keywords has the fingerprint 0, whatever it says, and a text that cannot be decoded has no
keywords. Of all such pages one is left in the library (`cutRedundantPages_keywordless`).
-/

set_option autoImplicit false

namespace LightSearch.Simhash

open Cxx Cppjieba

variable {W : Type}

/-- Where a key lies: on which machine, at which address, and with what behind it. -/
structure Place where
  littleEndian : Bool
  address : Nat
  behind : Memory

/-- The hash of a word at a place. -/
def hashAt (place : Place) (word : Str) : BitVec 64 :=
  (jenkins place.littleEndian place.address (fun i => word.getD i (place.behind i)) word.length 0).toBitVec

/-- The hash of a word: it does not depend on the place (`hashAt_eq`). -/
def hash (word : Str) : BitVec 64 := hashAt ⟨true, 0, fun _ => 0⟩ word

/-- `Simhasher`, with what its extractor calls. -/
structure Simhasher (W : Type) where
  extractor : KeywordExtractor W
  minDouble : W
  partial_sort : List (Keyword W) → Nat → List (Keyword W)

section Model

variable [LinearOrder W] [AddZeroClass W] [One W] [Mul W] [Neg W]

/-- `make`, the hashes with their weights. The words lie at places of their own. -/
def makeHashes (s : Simhasher W) (places : Nat → Place) (text : Str) (topN : Nat) :
    Except Fault (List (BitVec 64 × W)) := do
  let wordweights ← s.extractor.extract s.minDouble s.partial_sort text topN
  .ok (wordweights.mapIdx fun i k => (hashAt (places i) k.word, k.weight))

/-- What a hash adds to the weight of bit `j`. -/
def addVote (j : Nat) (weight : W) (h : BitVec 64 × W) : W :=
  weight + (if 1#64 <<< j &&& h.1 ≠ 0 then 1 else -1) * h.2

/-- The loops over the hashes and the bits: `weights`. -/
def voteWeights (hashvalues : List (BitVec 64 × W)) : List W :=
  hashvalues.foldl (fun weights h => weights.mapIdx fun j weight => addVote j weight h)
    (List.replicate 64 0)

/-- The loop over the bits: `v64`. -/
def setBits (weights : List W) : BitVec 64 :=
  (List.range 64).foldl (fun v64 j => if weights.getD j 0 > 0 then v64 ||| 1#64 <<< j else v64) 0

/-- `make`. -/
def make (s : Simhasher W) (places : Nat → Place) (text : Str) (topN : Nat) :
    Except Fault (BitVec 64) := do
  let hashvalues ← makeHashes s places text topN
  .ok (setBits (voteWeights hashvalues))

/-- The constructor of a page, with its fingerprint. -/
def newPage (s : Simhasher W) (places : Nat → Place) (docId : Nat) (tem : RssItem) :
    Except Fault HashedPage := do
  let page := WebPage.new docId tem
  let u ← make s places page.docContent 5
  .ok { page with u := u }

/-- `insert`. -/
def insert (s : Simhasher W) (pageLib : List HashedPage) (item : RssItem × Nat × (Nat → Place)) :
    Except Fault (List HashedPage) := do
  let m ← newPage s item.2.2 item.2.1 item.1
  .ok (pageLib ++ [m])

end Model

/-! ## The hashes -/

theorem hashAt_eq (place : Place) (word : Str) : hashAt place word = hash word := by
  have hbytes : ∀ i < word.length, word.getD i (place.behind i) = word.getD i 0 := by
    intro i hi
    simp [List.getD_eq_getElem?_getD, List.getElem?_eq_getElem hi]
  unfold hash hashAt jenkins
  rw [hashlittle2_eq place.littleEndian true place.address 0 hbytes]

/-! ## The bits -/

section Bits

variable [LinearOrder W] [AddZeroClass W] [One W] [Mul W] [Neg W]

/-- The weight of one bit, over the hashes. -/
def voteWeight (hashvalues : List (BitVec 64 × W)) (j : Nat) : W :=
  hashvalues.foldl (addVote j) 0

omit [LinearOrder W] in
theorem getElem?_voteWeights (hashvalues : List (BitVec 64 × W)) {j : Nat} (hj : j < 64) :
    (voteWeights hashvalues)[j]? = some (voteWeight hashvalues j) := by
  unfold voteWeights voteWeight
  have hrun : ∀ (weights : List W) (w : W), weights[j]? = some w →
      (hashvalues.foldl (fun weights h => weights.mapIdx fun j weight => addVote j weight h)
        weights)[j]? = some (hashvalues.foldl (addVote j) w) := by
    induction hashvalues with
    | nil => exact fun weights w h => h
    | cons h hashvalues ih =>
      intro weights w hw
      refine ih _ _ ?_
      rw [List.getElem?_mapIdx, hw]
      rfl
  apply hrun
  rw [List.getElem?_replicate, if_pos hj]

/-- The loop over the bits sets those of which `p` holds. -/
theorem getLsbD_foldl_or (p : Nat → Prop) [DecidablePred p] {n : Nat} (hn : n ≤ 64) (j : Nat) :
    ((List.range n).foldl (fun v64 j => if p j then v64 ||| 1#64 <<< j else v64) 0#64).getLsbD j =
      decide (j < n ∧ p j) := by
  induction n with
  | zero => simp
  | succ n ih =>
    have hbit : (1#64 <<< n).getLsbD j = decide (n = j) := by
      rw [← BitVec.twoPow_eq, BitVec.getLsbD_twoPow]
      simp
      omega
    rw [List.range_succ, List.foldl_append, List.foldl_cons, List.foldl_nil]
    by_cases hj : j = n
    · subst hj
      split
      · next hp => simp [hp, Nat.lt_of_succ_le hn]
      · next hp => simp [ih (Nat.le_of_succ_le hn), hp]
    · have hlt : j < n + 1 ↔ j < n := by omega
      split
      · rw [BitVec.getLsbD_or, ih (Nat.le_of_succ_le hn), hbit]
        simp [hlt, Ne.symm hj]
      · rw [ih (Nat.le_of_succ_le hn)]
        simp [hlt]

/-- A bit is set when its weight is positive. -/
theorem getLsbD_setBits (hashvalues : List (BitVec 64 × W)) {j : Nat} (hj : j < 64) :
    (setBits (voteWeights hashvalues)).getLsbD j = decide (0 < voteWeight hashvalues j) := by
  refine (getLsbD_foldl_or (fun j => (voteWeights hashvalues).getD j 0 > 0) (Nat.le_refl 64) j).trans ?_
  rw [List.getD_eq_getElem?_getD, getElem?_voteWeights _ hj, Option.getD_some]
  simp [hj]

/-- Without hashes no bit is set. -/
theorem setBits_nil : setBits (voteWeights ([] : List (BitVec 64 × W))) = 0 := by
  apply BitVec.eq_of_getLsbD_eq
  intro j hj
  rw [getLsbD_setBits _ hj]
  simp [voteWeight]

/-- The fingerprint of keywords. -/
def fingerprint (keywords : List (Keyword W)) : BitVec 64 :=
  setBits (voteWeights (keywords.map fun k => (hash k.word, k.weight)))

theorem make_eq {s : Simhasher W} {text : Str} {topN : Nat} {keywords : List (Keyword W)}
    (h : s.extractor.extract s.minDouble s.partial_sort text topN = .ok keywords)
    (places : Nat → Place) : make s places text topN = .ok (fingerprint keywords) := by
  have hhash : keywords.mapIdx (fun i k => (hashAt (places i) k.word, k.weight)) =
      keywords.map fun k => (hash k.word, k.weight) := by
    apply List.ext_getElem?
    intro i
    simp only [List.getElem?_mapIdx, List.getElem?_map, hashAt_eq]
  unfold make makeHashes fingerprint
  rw [h, Except.ok_bind, Except.ok_bind, hhash]

end Bits

/-! ## Exact weights -/

section Exact

variable [CommRing W] [LinearOrder W] [IsStrictOrderedRing W]

/-- The keywords with their weights. -/
def ballots (keywords : List (Keyword W)) : List (Str × W) := keywords.map fun k => (k.word, k.weight)

/-- The words that have bit `j`. -/
def hasBit (j : Nat) (word : Str) : Bool := (hash word).getLsbD j

omit [LinearOrder W] [IsStrictOrderedRing W] in
theorem addVote_eq {j : Nat} (hj : j < 64) (weight : W) (h : BitVec 64 × W) :
    addVote j weight h = weight + Majority.signed (h.1.getLsbD j) h.2 := by
  unfold addVote Majority.signed
  have hand : 1#64 <<< j &&& h.1 ≠ 0 ↔ h.1.getLsbD j = true := by
    rw [← BitVec.twoPow_eq, BitVec.and_comm, BitVec.and_twoPow]
    have hne : BitVec.twoPow 64 j ≠ 0#64 := by
      intro hzero
      have hbit := congrArg (fun x => x.getLsbD j) hzero
      simp [hj] at hbit
    cases h.1.getLsbD j
    · simp
    · simpa using hne
  simp only [hand]
  split
  · rw [one_mul]
  · rw [neg_one_mul]

omit [LinearOrder W] [IsStrictOrderedRing W] in
theorem voteWeight_eq (keywords : List (Keyword W)) {j : Nat} (hj : j < 64) :
    voteWeight (keywords.map fun k => (hash k.word, k.weight)) j =
      Majority.tally (hasBit j) (ballots keywords) := by
  have hrun : ∀ w : W, (keywords.map fun k => (hash k.word, k.weight)).foldl (addVote j) w =
      w + Majority.tally (hasBit j) (ballots keywords) := by
    induction keywords with
    | nil => exact fun w => (add_zero w).symm
    | cons k keywords ih =>
      intro w
      have htally : Majority.tally (hasBit j) (ballots (k :: keywords)) =
          Majority.signed (hasBit j k.word) k.weight + Majority.tally (hasBit j) (ballots keywords) :=
        Majority.tally_cons _ _ _
      rw [List.map_cons, List.foldl_cons, ih, addVote_eq hj, htally, add_assoc]
      rfl
  exact (hrun 0).trans (zero_add _)

/-- **A bit is the majority** of the keywords by weight. -/
theorem getLsbD_fingerprint (keywords : List (Keyword W)) {j : Nat} (hj : j < 64) :
    (fingerprint keywords).getLsbD j = true ↔
      Majority.weightOf (fun word => !hasBit j word) (ballots keywords) <
        Majority.weightOf (hasBit j) (ballots keywords) := by
  unfold fingerprint
  rw [getLsbD_setBits _ hj, decide_eq_true_iff, voteWeight_eq _ hj, Majority.tally_pos_iff]

/-- **The fingerprint of a text**: a bit is set when the keywords that have it outweigh the others. -/
theorem getLsbD_make (s : Simhasher W) (places : Nat → Place) (text : Str) (topN : Nat) :
    ∃ keywords u, s.extractor.extract s.minDouble s.partial_sort text topN = .ok keywords ∧
      make s places text topN = .ok u ∧
      ∀ j < 64, u.getLsbD j = true ↔
        Majority.weightOf (fun word => !hasBit j word) (ballots keywords) <
          Majority.weightOf (hasBit j) (ballots keywords) := by
  obtain ⟨keywords, hextract⟩ := s.extractor.exists_extract s.minDouble s.partial_sort text topN
  exact ⟨keywords, fingerprint keywords, hextract, make_eq hextract places,
    fun _ hj => getLsbD_fingerprint keywords hj⟩

def smallSimhasher : Simhasher ℤ := ⟨KeywordExtractor.smallExtractor, -100, KeywordExtractor.sortAll⟩

/-- A key at every multiple of 16, with ones behind it. -/
def paddedPlaces (i : Nat) : Place := ⟨true, 16 * i, fun _ => 255⟩

theorem getLsbD_make_zhongguo :
    ∃ keywords u, smallSimhasher.extractor.extract smallSimhasher.minDouble
        smallSimhasher.partial_sort (lit "中国中国人") 5 = .ok keywords ∧
      make smallSimhasher paddedPlaces (lit "中国中国人") 5 = .ok u ∧
      ∀ j < 64, u.getLsbD j = true ↔
        Majority.weightOf (fun word => !hasBit j word) (ballots keywords) <
          Majority.weightOf (hasBit j) (ballots keywords) :=
  getLsbD_make smallSimhasher paddedPlaces (lit "中国中国人") 5

/-- **Near fingerprints.** When the weights of the words change by less than the majority has, in all but
three bits, the fingerprints count as equal. -/
theorem isEqual_of_change {keywords keywords' : List (Keyword W)}
    (h : ((List.range 64).countP fun j => |Majority.tally (hasBit j) (ballots keywords)| ≤
      Majority.change (ballots keywords) (ballots keywords')) ≤ 3) :
    isEqual (fingerprint keywords) (fingerprint keywords') 3 = true := by
  unfold isEqual popcount
  refine decide_eq_true (le_trans (List.countP_mono_left fun j hj hdiffer => ?_) h)
  have hj : j < 64 := List.mem_range.mp hj
  by_contra hclear
  rw [decide_eq_true_iff, not_le] at hclear
  have hsame := Majority.pos_iff_of_change_lt hclear
  rw [BitVec.getLsbD_xor, fingerprint, fingerprint, getLsbD_setBits _ hj, getLsbD_setBits _ hj,
    voteWeight_eq _ hj, voteWeight_eq _ hj] at hdiffer
  simp [hsame] at hdiffer

/-- **Texts with near keywords** have fingerprints that count as equal, wherever their words lie. -/
theorem make_isEqual_of_change {s : Simhasher W} {text text' : Str} {topN : Nat}
    {keywords keywords' : List (Keyword W)}
    (hkeywords : s.extractor.extract s.minDouble s.partial_sort text topN = .ok keywords)
    (hkeywords' : s.extractor.extract s.minDouble s.partial_sort text' topN = .ok keywords')
    (hchange : ((List.range 64).countP fun j => |Majority.tally (hasBit j) (ballots keywords)| ≤
      Majority.change (ballots keywords) (ballots keywords')) ≤ 3) (places places' : Nat → Place) :
    ∃ u u', make s places text topN = .ok u ∧ make s places' text' topN = .ok u' ∧
      isEqual u u' 3 = true :=
  ⟨_, _, make_eq hkeywords places, make_eq hkeywords' places', isEqual_of_change hchange⟩

theorem make_isEqual_zhongguo :
    ∃ u u', make smallSimhasher paddedPlaces (lit "中国中国人") 5 = .ok u ∧
      make smallSimhasher (fun _ => ⟨false, 3, fun _ => 0⟩) (lit "中国中国中国人") 5 = .ok u' ∧
      isEqual u u' 3 = true := by
  have hkeywords : smallSimhasher.extractor.extract smallSimhasher.minDouble
      smallSimhasher.partial_sort (lit "中国中国人") 5 = .ok [⟨lit "中国", [0, 6], 2⟩] := by
    decide +kernel
  have hkeywords' : smallSimhasher.extractor.extract smallSimhasher.minDouble
      smallSimhasher.partial_sort (lit "中国中国中国人") 5 = .ok [⟨lit "中国", [0, 6, 12], 3⟩] := by
    decide +kernel
  refine make_isEqual_of_change hkeywords hkeywords' ?_ _ _
  -- every bit is decided by 2, and the weights change by 1
  have hchange : Majority.change (ballots [(⟨lit "中国", [0, 6], 2⟩ : Keyword ℤ)])
      (ballots [⟨lit "中国", [0, 6, 12], 3⟩]) = 1 := by decide +kernel
  have hclear : ∀ j ∈ List.range 64, ¬ |Majority.tally (hasBit j)
      (ballots [(⟨lit "中国", [0, 6], 2⟩ : Keyword ℤ)])| ≤ 1 := by
    intro j _
    simp [ballots, Majority.abs_signed]
  rw [hchange, List.countP_eq_zero.mpr fun j hj => by simpa using hclear j hj]
  exact Nat.zero_le _

end Exact

/-! ## Pages without keywords -/

section Keywordless

variable [LinearOrder W] [AddZeroClass W] [One W] [Mul W] [Neg W]

/-- A text without keywords: it cannot be decoded, or each of its words is skipped. -/
def Keywordless (s : Simhasher W) (text : Str) : Prop :=
  decodeRunesInString text = none ∨
    ∃ words, MixSegment.cut s.minDouble s.extractor.dict s.extractor.model true text = .ok words ∧
      ∀ word ∈ words, s.extractor.skips word = true

/-- A page that was made from an item of a feed. -/
def Made (s : Simhasher W) (item : RssItem × Nat × (Nat → Place)) (page : HashedPage) : Prop :=
  page.toWebPage = WebPage.new item.2.1 item.1 ∧ (Keywordless s page.docContent → page.u = 0)

theorem insert_made (s : Simhasher W) (pageLib : List HashedPage)
    (item : RssItem × Nat × (Nat → Place)) :
    ∃ page, insert s pageLib item = .ok (pageLib ++ [page]) ∧ Made s item page := by
  obtain ⟨tem, docId, places⟩ := item
  obtain ⟨keywords, hextract⟩ := s.extractor.exists_extract s.minDouble s.partial_sort
    (WebPage.new docId tem).docContent 5
  refine ⟨{ WebPage.new docId tem with u := fingerprint keywords }, ?_, rfl, fun hnone => ?_⟩
  · unfold insert newPage
    dsimp only
    rw [make_eq hextract, Except.ok_bind, Except.ok_bind]
  · have hnil : keywords = [] := by
      rcases hnone with hdecode | ⟨words, hcut, hskip⟩
      · have h := hextract.symm.trans (KeywordExtractor.extract_of_none hdecode 5)
        exact Except.ok.inj h
      · have hcandidates : s.extractor.candidates words = [] := by
          apply List.eq_nil_iff_forall_not_mem.mpr
          intro word hword
          obtain ⟨hmem, hno⟩ := KeywordExtractor.mem_candidates.mp hword
          rw [hskip word hmem] at hno
          cases hno
        have h := hextract.symm.trans (KeywordExtractor.extract_of_candidates hcut hcandidates 5)
        exact Except.ok.inj h
    dsimp only
    rw [hnil, fingerprint, List.map_nil, setBits_nil]

theorem foldlM_insert (s : Simhasher W) (items : List (RssItem × Nat × (Nat → Place)))
    (pageLib : List HashedPage) :
    ∃ pages, items.foldlM (insert s) pageLib = .ok (pageLib ++ pages) ∧
      List.Forall₂ (Made s) items pages := by
  induction items generalizing pageLib with
  | nil => exact ⟨[], by rw [List.append_nil]; rfl, .nil⟩
  | cons item items ih =>
    obtain ⟨page, hinsert, hmade⟩ := insert_made s pageLib item
    obtain ⟨pages, hrest, hpages⟩ := ih (pageLib ++ [page])
    refine ⟨page :: pages, ?_, .cons hmade hpages⟩
    rw [List.foldlM_cons, hinsert, Except.ok_bind, hrest, List.append_assoc, List.singleton_append]

/-- **Of the pages without keywords one is left**: after `cutRedundantPages` no two of them stand in the
library, and if the library has no other pages, only its first one. -/
theorem cutRedundantPages_keywordless (s : Simhasher W)
    (items : List (RssItem × Nat × (Nat → Place))) :
    ∃ pages kept, items.foldlM (insert s) [] = .ok pages ∧
      List.Forall₂ (fun item page => page.toWebPage = WebPage.new item.2.1 item.1) items pages ∧
      cutRedundantPages pages = .ok kept ∧
      kept.Pairwise (fun page other =>
        ¬ (Keywordless s page.docContent ∧ Keywordless s other.docContent)) ∧
      ((∀ page ∈ pages, Keywordless s page.docContent) → kept = pages.take 1) := by
  obtain ⟨pages, hrun, hmade⟩ := foldlM_insert s items []
  rw [List.nil_append] at hrun
  have hzero : ∀ page ∈ pages, Keywordless s page.docContent → page.u = 0 := by
    intro page hpage
    obtain ⟨i, hi, rfl⟩ := List.mem_iff_getElem.mp hpage
    obtain ⟨hlength, hget⟩ := List.forall₂_iff_get.mp hmade
    exact (hget i (by omega) hi).2
  have hnear : ∀ page other : HashedPage, page.u = 0 → other.u = 0 → near page other = true := by
    intro page other hpage hother
    rw [near, hpage, hother]
    decide
  have hkept : ∀ page ∈ Greedy.keep near pages, page ∈ pages :=
    fun page hpage => (Greedy.keep_sublist pages).subset hpage
  refine ⟨pages, _, hrun, hmade.imp fun _ _ h => h.1, cutRedundantFrom_eq [] pages, ?_, fun hall => ?_⟩
  · refine List.Pairwise.imp_of_mem (fun {page other} hpage hother hfar => ?_)
      (Greedy.keep_pairwise pages)
    rintro ⟨hnone, hnone'⟩
    rw [hnear _ _ (hzero _ (hkept _ hother) hnone') (hzero _ (hkept _ hpage) hnone)] at hfar
    cases hfar
  · cases pages with
    | nil => rfl
    | cons page rest =>
      have hfirst := hzero page List.mem_cons_self (hall page List.mem_cons_self)
      have hgone : rest.filter (fun other => !near other page) = [] := by
        rw [List.filter_eq_nil_iff]
        intro other hother
        have hmem := List.mem_cons_of_mem page hother
        rw [hnear _ _ (hzero other hmem (hall other hmem)) hfirst]
        decide
      rw [List.nil_append, Greedy.keep_cons, hgone, Greedy.keep_nil]
      rfl

end Keywordless

end LightSearch.Simhash
