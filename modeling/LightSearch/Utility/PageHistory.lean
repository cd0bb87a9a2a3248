import LightSearch.Utility.PageResult

/-!
# Several queries on one object

The steps of `doQuery` pass their results on in members of the object. Four of the six are cleared or
written anew by every call; `_tmpQueryWords` and `_intersectionId` only grow. Behind a sequence of
calls they have what all the calls put into them (`run_residue`).

A call goes through all ids of `_intersectionId`, and it counts its query words in `_tmpQueryWords`. So
it is as on a fresh object when no earlier call has found a page and either this one finds none or none
of its words was kept by an earlier call. A page that an earlier call left and that does not have a
word of this one ends the program (`doQuery_history`).
-/

set_option autoImplicit false

namespace LightSearch.WebPageQuery

open Cxx HashMap

variable {R : Type}

/-- The words that `cut` keeps of a sentence. -/
def keptWords (segment : Str → List Str) (stopWords : List Str) (sentence : Str) : List Str :=
  (segment sentence).filter fun elem => elem ∉ stopWords

/-- The query words of a sentence. -/
def askedWords (segment : Str → List Str) (stopWords : List Str) (sentence : Str) : List Str :=
  (Std.TreeSet.ofList (keptWords segment stopWords sentence) compare).toList

/-- The ids with which the database answers a word. -/
def answeredIds (invertLib : List (InvertRow R)) (word : Str) : List Nat :=
  match idSelect.denoted (idSelect.sql word) with
  | .ok value => selectIds invertLib value
  | .error _ => []

/-- The query words find a page: it comes up as often as there are words. -/
def Finds (invertLib : List (InvertRow R)) (queryWords : List Str) (id : Nat) : Prop :=
  id ∈ queryWords.flatMap (answeredIds invertLib) ∧
    (queryWords.flatMap (answeredIds invertLib)).count id = queryWords.length

/-- The ids that a call puts into `_intersectionId`. -/
def foundIds (o : Unordered) (invertLib : List (InvertRow R)) (queryWords : List Str) : List Nat :=
  ((inOrder o (tally (queryWords.flatMap (answeredIds invertLib)))).filter fun elem =>
    elem.2 = queryWords.length).map Prod.fst

theorem mem_foundIds {o : Unordered} {invertLib : List (InvertRow R)} {queryWords : List Str}
    {id : Nat} : id ∈ foundIds o invertLib queryWords ↔ Finds invertLib queryWords id := by
  unfold foundIds Finds
  rw [List.mem_map]
  constructor
  · rintro ⟨⟨id', n⟩, hmem, rfl⟩
    obtain ⟨hmem, hn⟩ := List.mem_filter.mp hmem
    obtain ⟨hcount, hpos⟩ := lookup_tally_eq_some.mp (mem_inOrder.mp hmem)
    rw [hcount] at hpos
    exact ⟨List.count_pos_iff.mp hpos, hcount.symm.trans (of_decide_eq_true hn)⟩
  · rintro ⟨hid, hcount⟩
    refine ⟨(id, queryWords.length), List.mem_filter.mpr ⟨?_, decide_eq_true rfl⟩, rfl⟩
    rw [mem_inOrder, lookup_tally_eq_some, hcount]
    exact ⟨rfl, hcount ▸ List.count_pos_iff.mpr hid⟩

/-! ## What a call leaves -/

variable {A : Arith R} {gt : R → R → Bool} {o o' : Unordered} {segment : Str → List Str}
  {webPageLib : List PageRow} {invertLib : List (InvertRow R)}

/-- The loop over the words counts the ids of their answers, if it comes to its end. -/
theorem countWords_ok {queryWords : List Str} {result result' : Map Nat Nat}
    (hrun : Run.run (countWord invertLib) result queryWords = .ok result') :
    result' = (queryWords.flatMap (answeredIds invertLib)).foldl bump result := by
  induction queryWords generalizing result with
  | nil => exact (Except.ok.inj hrun).symm
  | cons word queryWords ih =>
    obtain ⟨result₁, hstep, hrest⟩ := Except.bind_eq_ok.mp hrun
    obtain ⟨value, hvalue, heq⟩ := Except.bind_eq_ok.mp hstep
    have hids : answeredIds invertLib word = selectIds invertLib value := by
      unfold answeredIds
      rw [hvalue]
    rw [List.flatMap_cons, List.foldl_append, hids, Except.ok.inj heq]
    exact ih hrest

theorem getIntersectionId_residue {q q' : WebPageQuery R}
    (h : q.getIntersectionId o invertLib = .ok q') :
    q' = { q with intersectionId := q.intersectionId ++ foundIds o invertLib q.queryWords } := by
  obtain ⟨result, hrun, heq⟩ := Except.bind_eq_ok.mp h
  obtain rfl := countWords_ok hrun
  exact (Except.ok.inj heq).symm

/-- The other steps leave the members that `cut` and `getIntersectionId` write. -/
theorem getQueryWordsWeight_residue {q q' : WebPageQuery R}
    (h : q.getQueryWordsWeight A webPageLib invertLib = .ok q') :
    ∃ queryWeight, q' = { q with queryWeight := queryWeight } := by
  unfold getQueryWordsWeight at h
  split at h
  · exact ⟨q.queryWeight, (Except.ok.inj h).symm⟩
  · obtain ⟨weights, -, heq⟩ := Except.bind_eq_ok.mp h
    exact ⟨_, (Except.ok.inj heq).symm⟩

/-- **What a call leaves** in the object. -/
theorem rank_residue {q q' : WebPageQuery R} {sentence : Str}
    (h : q.rank A gt o o' segment webPageLib invertLib sentence = .ok q') :
    q'.stopWords = q.stopWords ∧
      q'.tmpQueryWords = q.tmpQueryWords ++ keptWords segment q.stopWords sentence ∧
      q'.intersectionId = q.intersectionId ++
        foundIds o invertLib (askedWords segment q.stopWords sentence) := by
  obtain ⟨q₁, hstep₁, hrest⟩ := Except.bind_eq_ok.mp h
  obtain ⟨q₂, hstep₂, hrest⟩ := Except.bind_eq_ok.mp hrest
  obtain ⟨q₃, hstep₃, hstep₄⟩ := Except.bind_eq_ok.mp hrest
  obtain rfl := getIntersectionId_residue hstep₁
  obtain ⟨queryWeight, rfl⟩ := getQueryWordsWeight_residue hstep₂
  obtain ⟨pageWeight, -, heq₃⟩ := Except.bind_eq_ok.mp hstep₃
  obtain rfl := Except.ok.inj heq₃
  obtain ⟨elems, -, heq₄⟩ := Except.bind_eq_ok.mp hstep₄
  obtain rfl := Except.ok.inj heq₄
  exact ⟨rfl, rfl, rfl⟩

/-- **What a sequence of calls leaves**: all words kept and all ids found. -/
theorem run_residue {q q' : WebPageQuery R} {sentences : List Str}
    (h : Run.run (rank A gt o o' segment webPageLib invertLib) q sentences = .ok q') :
    q'.stopWords = q.stopWords ∧
      q'.tmpQueryWords = q.tmpQueryWords ++ sentences.flatMap (keptWords segment q.stopWords) ∧
      q'.intersectionId = q.intersectionId ++ sentences.flatMap fun sentence =>
        foundIds o invertLib (askedWords segment q.stopWords sentence) := by
  induction sentences generalizing q with
  | nil =>
    obtain rfl := Except.ok.inj h
    exact ⟨rfl, (List.append_nil _).symm, (List.append_nil _).symm⟩
  | cons sentence sentences ih =>
    obtain ⟨q₁, hstep, hrest⟩ := Except.bind_eq_ok.mp h
    obtain ⟨hstop₁, htmp₁, hids₁⟩ := rank_residue hstep
    obtain ⟨hstop, htmp, hids⟩ := ih hrest
    rw [htmp₁, hstop₁, List.append_assoc] at htmp
    rw [hids₁, hstop₁, List.append_assoc] at hids
    exact ⟨hstop.trans hstop₁, htmp, hids⟩

/-! ## What a call reads -/

/-- The last steps read the query words, the ids, and the query weights if there is an id. -/
theorem showPages_congr (json : Json.Text) {q f : WebPageQuery R} (hwords : q.queryWords = f.queryWords)
    (hids : q.intersectionId = f.intersectionId)
    (hweight : f.intersectionId = [] ∨ q.queryWeight = f.queryWeight) :
    (q.getPageWeight invertLib >>= fun q => q.getCos A gt o' >>= fun q =>
        q.getQueryResult json webPageLib) =
      (f.getPageWeight invertLib >>= fun f => f.getCos A gt o' >>= fun f =>
        f.getQueryResult json webPageLib) := by
  unfold getPageWeight
  rw [hwords, hids, bind_assoc, bind_assoc]
  cases hpages : Run.run (fun (pageWeight : Map Nat (List R)) id => do
      let weights ← f.queryWords.mapM (pageWordWeight invertLib id)
      Except.ok (pageWeight.insert id weights)) ∅ f.intersectionId with
  | error fault => rfl
  | ok pageWeight =>
    have hcos : ((inOrder o' pageWeight).mapM fun elem => do
          Except.ok ((← cosOf A q.queryWeight elem.2), elem.1)) =
        ((inOrder o' pageWeight).mapM fun elem => do
          Except.ok ((← cosOf A f.queryWeight elem.2), elem.1)) := by
      rcases hweight with hnil | heq
      · -- without ids there is no page to go through
        rw [hnil] at hpages
        obtain rfl := Except.ok.inj hpages
        have hempty : inOrder o' (∅ : Map Nat (List R)) = [] := List.Perm.eq_nil (o'.perm [])
        rw [hempty]
        rfl
      · rw [heq]
    simp only [Except.ok_bind, getCos, getQueryResult, hcos, bind_assoc]

/-- The steps behind `getIntersectionId` read, if there is an id, how often the query words were
kept. -/
theorem weighPages_congr (json : Json.Text) {q f : WebPageQuery R}
    (hwords : q.queryWords = f.queryWords) (hids : q.intersectionId = f.intersectionId)
    (hcounts : f.intersectionId = [] ∨
      ∀ word ∈ f.queryWords, q.tmpQueryWords.count word = f.tmpQueryWords.count word) :
    (q.getQueryWordsWeight A webPageLib invertLib >>= fun q => q.getPageWeight invertLib >>= fun q =>
        q.getCos A gt o' >>= fun q => q.getQueryResult json webPageLib) =
      (f.getQueryWordsWeight A webPageLib invertLib >>= fun f => f.getPageWeight invertLib >>= fun f =>
        f.getCos A gt o' >>= fun f => f.getQueryResult json webPageLib) := by
  unfold getQueryWordsWeight
  rw [hids]
  by_cases hnil : f.intersectionId.length = 0
  · rw [if_pos hnil, if_pos hnil]
    exact showPages_congr json hwords hids (.inl (List.length_eq_zero_iff.mp hnil))
  · rw [if_neg hnil, if_neg hnil, hwords]
    have hsame : ∀ word ∈ f.queryWords, q.tmpQueryWords.count word = f.tmpQueryWords.count word :=
      hcounts.resolve_left fun h => hnil (List.length_eq_zero_iff.mpr h)
    have hweights : f.queryWords.mapM (queryWordWeight A webPageLib invertLib q) =
        f.queryWords.mapM (queryWordWeight A webPageLib invertLib f) := by
      apply Except.mapM_congr
      intro word hword
      unfold queryWordWeight
      rw [hsame word hword]
    rw [hweights, bind_assoc, bind_assoc]
    cases f.queryWords.mapM (queryWordWeight A webPageLib invertLib f) with
    | error fault => rfl
    | ok weights => exact showPages_congr json rfl rfl (.inr rfl)

/-- **A call reads** the query words, the ids with those it adds, and the numbers of its words among
the words kept if there is an id. -/
theorem doQuery_congr (json : Json.Text) {q f : WebPageQuery R} {sentence : Str}
    (hstop : q.stopWords = f.stopWords) (hids : q.intersectionId = f.intersectionId)
    (hreads : f.intersectionId ++ foundIds o invertLib (askedWords segment f.stopWords sentence) = [] ∨
      ∀ word ∈ askedWords segment f.stopWords sentence,
        q.tmpQueryWords.count word = f.tmpQueryWords.count word) :
    q.doQuery json A gt o o' segment webPageLib invertLib sentence =
      f.doQuery json A gt o o' segment webPageLib invertLib sentence := by
  have hwords : (q.cut segment sentence).queryWords = (f.cut segment sentence).queryWords := by
    unfold cut
    rw [hstop]
  unfold doQuery rank getIntersectionId
  rw [hwords]
  simp only [bind_assoc]
  cases hrun : Run.run (countWord invertLib) ∅ (f.cut segment sentence).queryWords with
  | error fault => rfl
  | ok result =>
    obtain rfl := countWords_ok hrun
    refine weighPages_congr json rfl (congrArg (· ++ _) hids) (hreads.imp_right fun hsame => ?_)
    intro word hword
    show (q.tmpQueryWords ++ keptWords segment q.stopWords sentence).count word =
      (f.tmpQueryWords ++ keptWords segment f.stopWords sentence).count word
    rw [List.count_append, List.count_append, hstop, hsame word hword]

/-- A call that goes through an id without a row for one of its words does not return. -/
theorem doQuery_stale (json : Json.Text) {q : WebPageQuery R} {sentence word : Str} {id : Nat}
    (hid : id ∈ q.intersectionId) (hword : word ∈ askedWords segment q.stopWords sentence)
    (hquotable : AllQuotable word) (hrow : id ∉ selectIds invertLib word) (result : Str) :
    q.doQuery json A gt o o' segment webPageLib invertLib sentence ≠ .ok result := by
  intro h
  obtain ⟨q', hrank, -⟩ := Except.bind_eq_ok.mp h
  obtain ⟨q₁, hstep₁, hrest⟩ := Except.bind_eq_ok.mp hrank
  obtain ⟨q₂, hstep₂, hrest⟩ := Except.bind_eq_ok.mp hrest
  obtain ⟨q₃, hstep₃, -⟩ := Except.bind_eq_ok.mp hrest
  obtain rfl := getIntersectionId_residue hstep₁
  obtain ⟨queryWeight, rfl⟩ := getQueryWordsWeight_residue hstep₂
  -- the weight of the word on the page was asked for
  obtain ⟨pageWeight, hloop, -⟩ := Except.bind_eq_ok.mp hstep₃
  obtain ⟨_, _, hpage⟩ := Run.run_step hloop (List.mem_append_left _ hid)
  obtain ⟨weights, hweights, -⟩ := Except.bind_eq_ok.mp hpage
  obtain ⟨weight, -, hweight⟩ := Except.of_mapM_ok hweights hword
  unfold pageWordWeight at hweight
  rw [denoted_quotable (weightSelect_wellFormed id) hquotable, Except.ok_bind] at hweight
  exact hrow (firstWeight_exists_ok.mp ⟨weight, hweight⟩)

/-- **A call behind others.** Behind calls that found no page it returns what it returns on a fresh
object, when it finds no page itself or none of its words was kept by them. Behind a call that found a
page which does not have one of its words it does not return. -/
theorem doQuery_history (json : Json.Text) {contents : Str} {sentences : List Str} {q : WebPageQuery R}
    (hrun : Run.run (rank A gt o o' segment webPageLib invertLib) (new contents) sentences = .ok q)
    (sentence : Str) :
    ((∀ earlier ∈ sentences, ∀ id,
          ¬ Finds invertLib (askedWords segment (words contents) earlier) id) →
        ((∀ id, ¬ Finds invertLib (askedWords segment (words contents) sentence) id) ∨
          ∀ word ∈ askedWords segment (words contents) sentence, ∀ earlier ∈ sentences,
            word ∉ keptWords segment (words contents) earlier) →
        q.doQuery json A gt o o' segment webPageLib invertLib sentence =
          (new contents).doQuery json A gt o o' segment webPageLib invertLib sentence) ∧
      ∀ earlier ∈ sentences, ∀ id, Finds invertLib (askedWords segment (words contents) earlier) id →
        ∀ word ∈ askedWords segment (words contents) sentence, AllQuotable word →
          id ∉ selectIds invertLib word → ∀ result,
            q.doQuery json A gt o o' segment webPageLib invertLib sentence ≠ .ok result := by
  obtain ⟨hstop, htmp, hids⟩ := run_residue hrun
  have hstart : (new contents : WebPageQuery R).stopWords = words contents := rfl
  rw [hstart] at hstop htmp hids
  constructor
  · intro hnone hreads
    have hempty : ∀ sentence, (∀ id, ¬ Finds invertLib (askedWords segment (words contents) sentence) id) →
        foundIds o invertLib (askedWords segment (words contents) sentence) = [] := fun sentence h =>
      List.eq_nil_iff_forall_not_mem.mpr fun id hid => h id (mem_foundIds.mp hid)
    have hids' : q.intersectionId = [] := by
      rw [hids]
      exact List.flatMap_eq_nil_iff.mpr fun earlier hearlier =>
        hempty earlier (hnone earlier hearlier)
    refine doQuery_congr json hstop hids' (hreads.imp (hempty sentence) fun hapart word hword => ?_)
    rw [htmp]
    apply List.count_eq_zero_of_not_mem
    intro hmem
    obtain ⟨earlier, hearlier, hkept⟩ := List.mem_flatMap.mp hmem
    exact hapart word hword earlier hearlier hkept
  · intro earlier hearlier id hfinds word hword hquotable hrow
    have hid : id ∈ q.intersectionId := by
      rw [hids]
      exact List.mem_flatMap.mpr ⟨earlier, hearlier, mem_foundIds.mpr hfinds⟩
    exact doQuery_stale json hid (hstop ▸ hword) hquotable hrow

/-! ## Two pages with one word each -/

/-- A page on red tea and a page on green tea. -/
def teaPages : List PageRow :=
  [⟨1, lit "http://red", lit "red", lit "红茶好"⟩, ⟨2, lit "http://green", lit "green", lit "绿茶好"⟩]

def teaRows : List (InvertRow Float) := [⟨lit "红", 1, 1⟩, ⟨lit "绿", 2, 1⟩]

/-- A call for one character succeeds, and what it finds are the rows of the character. -/
theorem rank_tea {sentence : Str} (hasked : askedWords runes [] sentence = [sentence])
    (hquotable : AllQuotable sentence) :
    ∃ q, (new [] : WebPageQuery Float).rank doubles (fun x y => y < x) .asIs .asIs runes teaPages teaRows
      sentence = .ok q := by
  have hwords : ((new [] : WebPageQuery Float).cut runes sentence).queryWords = [sentence] := hasked
  refine (rank_ok doubles _ .asIs .asIs teaPages rfl ?_ ?_).imp fun q h => h.1
  · rw [hwords]
    exact List.forall_mem_singleton.mpr hquotable
  · rw [hwords]
    intro id hid word hword
    obtain rfl := List.mem_singleton.mp hword
    simpa using hid.1

/-- A query for green tea, behind one that found nothing. -/
theorem doQuery_history_tea :
    ∃ q, Run.run (rank doubles (fun x y => y < x) .asIs .asIs runes teaPages teaRows) (new [])
        [lit "白"] = .ok q ∧
      q.doQuery Json.shallow doubles (fun x y => y < x) .asIs .asIs runes teaPages teaRows (lit "绿") =
        (new []).doQuery Json.shallow doubles (fun x y => y < x) .asIs .asIs runes teaPages teaRows
          (lit "绿") := by
  have hasked : askedWords runes [] (lit "白") = [lit "白"] := by decide
  obtain ⟨q, hrank⟩ := rank_tea hasked (by decide)
  have hrun : Run.run (rank doubles (fun x y => y < x) .asIs .asIs runes teaPages teaRows) (new [])
      [lit "白"] = .ok q := by
    rw [Run.run_cons, hrank]
    rfl
  refine ⟨q, hrun, (doQuery_history Json.shallow hrun (lit "绿")).1 ?_ (.inr ?_)⟩
  · intro earlier hearlier id hfinds
    obtain rfl := List.mem_singleton.mp hearlier
    have hanswer : answeredIds teaRows (lit "白") = [] := by decide
    have hmem := hfinds.1
    rw [show words [] = [] from rfl, hasked] at hmem
    simp [hanswer] at hmem
  · decide

/-- A new object has a result for green tea. -/
theorem green_tea_ok :
    ∃ result, (new []).doQuery Json.shallow doubles (fun x y => y < x) .asIs .asIs runes teaPages teaRows
      (lit "绿") = .ok result := by
  have hwords : ((new [] : WebPageQuery Float).cut runes (lit "绿")).queryWords = [lit "绿"] := by
    decide
  refine (doQuery_exists_ok Json.shallow doubles _ .asIs .asIs runes_symbolsAlone teaPages teaRows []
    (lit "绿") rfl).mpr ⟨?_, ?_⟩
  · rw [hwords]
    decide
  · rw [hwords]
    intro id hid
    obtain rfl : id = 2 := by
      have hmem : id ∈ [lit "绿"].flatMap (selectIds teaRows) := hid.1
      have hids : [lit "绿"].flatMap (selectIds teaRows) = [2] := by decide
      rw [hids] at hmem
      exact List.mem_singleton.mp hmem
    refine ⟨by decide, fun row hrow => ?_⟩
    obtain rfl : row = ⟨2, lit "http://green", lit "green", lit "绿茶好"⟩ :=
      (Option.some.inj hrow).symm
    have hdesc : (removeBlanks (lit "绿茶好")).check (fun desc => decide (Cuttable desc)) = true := by
      decide
    obtain ⟨desc, hblanks, hcuttable⟩ := Except.exists_of_check hdesc
    have hcompiles : ∀ word ∈ [lit "绿"], Regex.Compiles word := by decide
    exact ⟨⟨desc, hblanks, of_decide_eq_true hcuttable⟩, hcompiles⟩

/-- A query for red tea, and then one for green tea. -/
theorem history_stale :
    ¬ ∀ (sentences : List Str) (q : WebPageQuery Float) (sentence : Str),
      Run.run (rank doubles (fun x y => y < x) .asIs .asIs runes teaPages teaRows) (new []) sentences =
        .ok q →
      q.doQuery Json.shallow doubles (fun x y => y < x) .asIs .asIs runes teaPages teaRows sentence =
        (new []).doQuery Json.shallow doubles (fun x y => y < x) .asIs .asIs runes teaPages teaRows
          sentence := by
  intro h
  have hasked : askedWords runes [] (lit "红") = [lit "红"] := by decide
  obtain ⟨q, hrank⟩ := rank_tea hasked (by decide)
  have hrun : Run.run (rank doubles (fun x y => y < x) .asIs .asIs runes teaPages teaRows) (new [])
      [lit "红"] = .ok q := by
    rw [Run.run_cons, hrank]
    rfl
  obtain ⟨hstop, -, hids⟩ := rank_residue hrank
  have hred : 1 ∈ q.intersectionId := by
    rw [hids]
    decide
  have hgreen : lit "绿" ∈ askedWords runes q.stopWords (lit "绿") := by
    rw [hstop]
    decide
  obtain ⟨result, hresult⟩ := green_tea_ok
  exact doQuery_stale Json.shallow hred hgreen (by decide) (by decide) result
    ((h _ q _ hrun).trans hresult)

end LightSearch.WebPageQuery
