import LightSearch.Lib.Json
import LightSearch.Lib.Regex
import LightSearch.Utility.PageRanking

/-!
# The text of the pages

`getQueryResult` goes through the pages in their order. From each description it takes the white space
out, cuts a window of 120 bytes around the first places of the query words, trims the windows to
characters of three bytes, and colours the query words.

Two things can end the program here. The trimming reads in front of a window of fewer than four bytes
unless it has the lead byte of a character of three bytes (`snippet_exists_ok`), and a query word is
used as a regular expression, which throws when it is none (`highlight_exists_ok`).
-/

set_option autoImplicit false

namespace LightSearch.WebPageQuery

open Cxx

variable {R : Type}

/-- White space, and what pages have in its place. -/
def blanksPattern : Str := lit "\\s|　|(&nbsp;)|(nbsp;)|(showPlayer\\([^)]+\\);)"

/-- A description without its white space. -/
def removeBlanks (desc : Str) : Except Fault Str := do
  let e ← Regex.new blanksPattern
  .ok (e.replace desc [])

/-- `int tmp = desc.find(elem)`. -/
def position (desc elem : Str) : Int :=
  match find elem desc with
  | some pos => pos
  | none => -1

/-- The first positions of the query words, as a `set<int>`. -/
def positions (desc : Str) (queryWords : List Str) : List Int :=
  (Std.TreeSet.ofList (queryWords.map (position desc)) compare).toList

/-- The loop that erases the positions close to the one before. -/
def mergeFrom (slow : Int) : List Int → List Int
  | [] => []
  | fast :: index => if fast < slow + 60 then mergeFrom slow index else fast :: mergeFrom fast index

/-- The positions that are left. The iterators do not look whether there is a first one. -/
def merge : List Int → Except Fault (List Int)
  | [] => .error .danglingIterator
  | slow :: index => .ok (slow :: mergeFrom slow index)

/-- The 120 bytes around a position. -/
def window (desc : Str) (elem : Int) : Except Fault Str :=
  if elem ≥ 60 then substr desc (elem - 60).toNat 120 else substr desc 0 120

/-- `(ch & 0xe0) == 0xe0`. -/
def isLead (ch : UInt8) : Bool := ch &&& 0xe0 = 0xe0

/-- The window without the rest of a character at its front. -/
def trimFront (tmp : Str) : Except Fault Str := do
  let first ← charAt tmp 0
  if isLead first then .ok tmp
  else do
    let second ← charAt tmp 1
    if isLead second then substr tmp 1 tmp.length else substr tmp 2 tmp.length

/-- `tmp[tmp.size() - back]`. -/
def charBack (tmp : Str) (back : Nat) : Except Fault UInt8 :=
  if back ≤ tmp.length then charAt tmp (tmp.length - back) else .error .danglingIterator

/-- The window without the beginning of a character at its end. -/
def trimBack (tmp : Str) : Except Fault Str := do
  let size := tmp.length
  let last ← charBack tmp 1
  if isLead last then substr tmp 0 (size - 1)
  else do
    let beforeLast ← charBack tmp 2
    if isLead beforeLast then substr tmp 0 (size - 2) else .ok tmp

/-- What is taken from a description for one position. -/
def snippet (desc : Str) (elem : Int) : Except Fault Str := do
  let tmp ← window desc elem
  let tmp ← trimFront tmp
  trimBack tmp

/-- What is taken from a description. -/
def summary (queryWords : List Str) (desc : Str) : Except Fault Str := do
  let index ← merge (positions desc queryWords)
  let parts ← index.mapM (snippet desc)
  .ok (parts.flatMap fun tmp => tmp ++ lit "...")

/-- One query word gets its colour. -/
def highlightWord (desc elem : Str) : Except Fault Str := do
  let e ← Regex.new elem
  .ok (e.replace desc (lit "\x1b[93m" ++ elem ++ lit "\x1b[39m"))

def highlight (queryWords : List Str) (desc : Str) : Except Fault Str :=
  Run.run highlightWord desc queryWords

/-- The text for the page with a row. -/
def pageText (queryWords : List Str) (row : PageRow) : Except Fault Str := do
  let desc ← removeBlanks row.description
  let desc ← summary queryWords desc
  let desc ← highlight queryWords desc
  .ok (lit "Id: " ++ decimal row.id ++ lit "\n" ++ (lit "Title: " ++ row.title ++ lit "\n") ++
    (lit "Url: " ++ row.url ++ lit "\n") ++ (lit "Summary: " ++ desc))

/-- The text for a page; an id without a row has none. -/
def pageResult (webPageLib : List PageRow) (queryWords : List Str) (id : Nat) :
    Except Fault (Option Str) :=
  match webPageLib.find? fun row => row.id = id with
  | none => .ok none
  | some row => do
    let result ← pageText queryWords row
    .ok (some result)

/-- `getQueryResult`. -/
def getQueryResult (json : Json.Text) (webPageLib : List PageRow) (q : WebPageQuery R) :
    Except Fault Str := do
  let results ← q.pageCos.mapM fun elem => pageResult webPageLib q.queryWords elem.2
  let queryResult := results.filterMap id
  .ok (if queryResult.length ≠ 0 then
      json.dump (.object [(lit "WebPage", .array (queryResult.map .string))])
    else [])

/-- `doQuery`. -/
def doQuery (json : Json.Text) (A : Arith R) (gt : R → R → Bool) (o o' : Unordered)
    (segment : Str → List Str) (webPageLib : List PageRow) (invertLib : List (InvertRow R))
    (q : WebPageQuery R) (sentence : Str) : Except Fault Str := do
  let q ← q.rank A gt o o' segment webPageLib invertLib sentence
  q.getQueryResult json webPageLib

/-! ## Cutting -/

/-- A text that can be trimmed: of four bytes or more, or with a lead byte of three. -/
def Cuttable (desc : Str) : Prop := 4 ≤ desc.length ∨ ∃ ch ∈ desc, isLead ch = true

instance (desc : Str) : Decidable (Cuttable desc) := inferInstanceAs (Decidable (_ ∨ _))

theorem removeBlanks_ok (desc : Str) : ∃ desc', removeBlanks desc = .ok desc' := by
  have hcompiles : Regex.Compiles blanksPattern := by decide
  obtain ⟨e, he⟩ := Regex.new_exists_ok.mpr hcompiles
  exact ⟨_, Except.bind_eq_ok.mpr ⟨e, he, rfl⟩⟩

/-- A text of two bytes or more has all the bytes that are looked at behind its front. -/
theorem trimBack_ok {tmp : Str} (h : 2 ≤ tmp.length) : ∃ tmp', trimBack tmp = .ok tmp' := by
  have hback : ∀ back, 0 < back → back ≤ 2 → ∃ ch, charBack tmp back = .ok ch := by
    intro back hpos hback
    refine ⟨tmp.getD (tmp.length - back) 0, ?_⟩
    unfold charBack charAt
    rw [if_pos (Nat.le_trans hback h), if_pos (Nat.sub_le _ _)]
  obtain ⟨last, hlast⟩ := hback 1 (by decide) (by decide)
  obtain ⟨beforeLast, hbeforeLast⟩ := hback 2 (by decide) (by decide)
  unfold trimBack
  simp only [hlast, hbeforeLast, Except.ok_bind]
  split
  · exact ⟨_, if_pos (Nat.zero_le _)⟩
  · split
    · exact ⟨_, if_pos (Nat.zero_le _)⟩
    · exact ⟨_, rfl⟩

/-- **When a window can be trimmed.** -/
theorem trim_exists_ok (tmp : Str) : (∃ tmp', (trimFront tmp >>= trimBack) = .ok tmp') ↔ Cuttable tmp := by
  have hnul : isLead 0 = false := rfl
  unfold Cuttable
  match tmp with
  | [] => simp [trimFront, charAt, hnul]
  | [a] => cases ha : isLead a <;> simp [trimFront, trimBack, charBack, charAt, substr, ha, hnul]
  | [a, b] =>
    cases ha : isLead a <;> cases hb : isLead b <;>
      simp [trimFront, trimBack, charBack, charAt, substr, ha, hb]
  | [a, b, c] =>
    cases ha : isLead a <;> cases hb : isLead b <;> cases hc : isLead c <;>
      simp [trimFront, trimBack, charBack, charAt, substr, ha, hb, hc]
  | a :: b :: c :: d :: tmp =>
    have hlong : 4 ≤ (a :: b :: c :: d :: tmp).length := Nat.le_add_left 4 _
    refine iff_of_true ?_ (.inl hlong)
    -- at most two bytes go at the front
    obtain ⟨tmp', hfront, hlen⟩ : ∃ tmp', trimFront (a :: b :: c :: d :: tmp) = .ok tmp' ∧
        2 ≤ tmp'.length := by
      cases ha : isLead a <;> cases hb : isLead b <;>
        simp [trimFront, charAt, substr, ha, hb]
    rw [hfront, Except.ok_bind]
    exact trimBack_ok hlen

/-- A window has four bytes if the description does, and is the description otherwise. -/
theorem window_ok {desc : Str} {elem : Int} (h : elem ≤ desc.length) :
    ∃ tmp, window desc elem = .ok tmp ∧ (Cuttable tmp ↔ Cuttable desc) := by
  unfold window
  split
  · next hfar =>
    have hlong : 60 ≤ desc.length := by omega
    have hstart : (elem - 60).toNat ≤ desc.length := by omega
    refine ⟨_, if_pos hstart, iff_of_true (.inl ?_) (.inl ?_)⟩
    · rw [List.length_take, List.length_drop]
      omega
    · omega
  · refine ⟨_, if_pos (Nat.zero_le _), ?_⟩
    rw [List.drop_zero]
    by_cases hlen : 4 ≤ desc.length
    · refine iff_of_true (.inl ?_) (.inl hlen)
      rw [List.length_take]
      omega
    · rw [List.take_of_length_le (by omega)]

/-- What is taken from a description for a position in it, or for none. -/
theorem snippet_exists_ok {desc : Str} {elem : Int} (h : elem ≤ desc.length) :
    (∃ tmp, snippet desc elem = .ok tmp) ↔ Cuttable desc := by
  obtain ⟨tmp, hwindow, hcuttable⟩ := window_ok h
  unfold snippet
  rw [hwindow, Except.ok_bind, ← hcuttable]
  exact trim_exists_ok tmp

theorem position_le (desc elem : Str) : position desc elem ≤ desc.length := by
  unfold position
  split
  · next pos hpos => exact Int.ofNat_le.mpr (find_le hpos)
  · omega

theorem mem_positions {desc : Str} {queryWords : List Str} {elem : Int} :
    elem ∈ positions desc queryWords ↔ ∃ word ∈ queryWords, position desc word = elem := by
  unfold positions
  rw [Std.TreeSet.mem_toList, Std.TreeSet.mem_ofList, List.contains_iff_mem, List.mem_map]

theorem mem_mergeFrom {slow elem : Int} {index : List Int} (h : elem ∈ mergeFrom slow index) :
    elem ∈ index := by
  induction index generalizing slow with
  | nil => exact h
  | cons fast index ih =>
    unfold mergeFrom at h
    split at h
    · exact List.mem_cons_of_mem _ (ih h)
    · rcases List.mem_cons.mp h with rfl | h
      · exact List.mem_cons_self
      · exact List.mem_cons_of_mem _ (ih h)

/-- The positions that are left are first positions of query words. -/
theorem merge_positions (desc : Str) {queryWords : List Str} (hne : queryWords ≠ []) :
    ∃ index, merge (positions desc queryWords) = .ok index ∧ index ≠ [] ∧
      ∀ elem ∈ index, elem ≤ (desc.length : Int) := by
  obtain ⟨word, hword⟩ := List.exists_mem_of_ne_nil queryWords hne
  have hpositions : position desc word ∈ positions desc queryWords := mem_positions.mpr ⟨word, hword, rfl⟩
  cases hindex : positions desc queryWords with
  | nil =>
    rw [hindex] at hpositions
    exact absurd hpositions List.not_mem_nil
  | cons slow index =>
    refine ⟨_, rfl, List.cons_ne_nil _ _, fun elem helem => ?_⟩
    have hleft : elem ∈ positions desc queryWords := by
      rw [hindex]
      rcases List.mem_cons.mp helem with rfl | helem
      · exact List.mem_cons_self
      · exact List.mem_cons_of_mem _ (mem_mergeFrom helem)
    obtain ⟨w, -, rfl⟩ := mem_positions.mp hleft
    exact position_le desc w

/-- **When a description can be cut.** -/
theorem summary_exists_ok (desc : Str) {queryWords : List Str} (hne : queryWords ≠ []) :
    (∃ desc', summary queryWords desc = .ok desc') ↔ Cuttable desc := by
  obtain ⟨index, hindex, hindexne, hle⟩ := merge_positions desc hne
  have hparts : (∃ parts, index.mapM (snippet desc) = .ok parts) ↔ Cuttable desc := by
    rw [Except.exists_mapM_ok]
    constructor
    · intro h
      obtain ⟨elem, helem⟩ := List.exists_mem_of_ne_nil index hindexne
      exact (snippet_exists_ok (hle elem helem)).mp (h elem helem)
    · intro h elem helem
      exact (snippet_exists_ok (hle elem helem)).mpr h
  unfold summary
  rw [hindex, Except.ok_bind, ← hparts]
  exact Except.exists_bind_ok_of_total fun parts => ⟨_, rfl⟩

/-! ## Colouring -/

/-- **When query words can be coloured.** -/
theorem highlight_exists_ok {desc : Str} {queryWords : List Str} :
    (∃ desc', highlight queryWords desc = .ok desc') ↔ ∀ word ∈ queryWords, Regex.Compiles word := by
  apply Run.exists_run_ok
  intro desc elem
  rw [← Regex.new_exists_ok]
  exact Except.exists_bind_ok_of_total fun e => ⟨_, rfl⟩

/-! ## The result of a query -/

/-- A row that query words can be shown in: its description is cuttable without white space, and the
words are regular expressions. -/
def Presentable (queryWords : List Str) (row : PageRow) : Prop :=
  (∃ desc, removeBlanks row.description = .ok desc ∧ Cuttable desc) ∧
    ∀ word ∈ queryWords, Regex.Compiles word

theorem pageText_exists_ok {queryWords : List Str} (hne : queryWords ≠ []) {row : PageRow} :
    (∃ result, pageText queryWords row = .ok result) ↔ Presentable queryWords row := by
  obtain ⟨desc, hdesc⟩ := removeBlanks_ok row.description
  unfold pageText Presentable
  rw [hdesc, Except.ok_bind]
  constructor
  · intro h
    obtain ⟨desc₁, hsummary, h⟩ := Except.exists_bind_ok.mp h
    have hhighlight := (Except.exists_bind_ok_of_total fun desc => ⟨_, rfl⟩).mp h
    exact ⟨⟨desc, rfl, (summary_exists_ok desc hne).mp ⟨desc₁, hsummary⟩⟩,
      highlight_exists_ok.mp hhighlight⟩
  · rintro ⟨⟨desc', heq, hcuttable⟩, hcompiles⟩
    obtain rfl := Except.ok.inj heq
    obtain ⟨desc₁, hsummary⟩ := (summary_exists_ok desc hne).mpr hcuttable
    obtain ⟨desc₂, hhighlight⟩ := highlight_exists_ok.mpr hcompiles
    exact ⟨_, Except.bind_eq_ok.mpr ⟨desc₁, hsummary,
      Except.bind_eq_ok.mpr ⟨desc₂, hhighlight, rfl⟩⟩⟩

theorem pageResult_exists_ok {webPageLib : List PageRow} {queryWords : List Str}
    (hne : queryWords ≠ []) {id : Nat} :
    (∃ result, pageResult webPageLib queryWords id = .ok result) ↔
      ∀ row, webPageLib.find? (fun row => row.id = id) = some row → Presentable queryWords row := by
  unfold pageResult
  cases webPageLib.find? fun row => row.id = id with
  | none => exact iff_of_true ⟨none, rfl⟩ fun _ h => nomatch h
  | some row =>
    simp only [Option.some.injEq, forall_eq']
    rw [← pageText_exists_ok hne]
    exact Except.exists_bind_ok_of_total fun text => ⟨_, rfl⟩

/-- The pages of a query can be shown. An id has a row for each query word, and its page is
presentable if there is one. -/
def Shows (webPageLib : List PageRow) (invertLib : List (InvertRow R)) (queryWords : List Str)
    (id : Nat) : Prop :=
  (∀ word ∈ queryWords, id ∈ selectIds invertLib word) ∧
    ∀ row, webPageLib.find? (fun row => row.id = id) = some row → Presentable queryWords row

/-- **When a query has a result.** Its words can stand between quotes, and each id with as many rows
for the words as there are words has one for each, and a presentable page if it has one. -/
theorem doQuery_exists_ok (json : Json.Text) (A : Arith R) (gt : R → R → Bool) (o o' : Unordered)
    {segment : Str → List Str} (hcut : SymbolsAlone segment) (webPageLib : List PageRow)
    (invertLib : List (InvertRow R)) (contents sentence : Str) {q : WebPageQuery R}
    (hq : q = (WebPageQuery.new contents).cut segment sentence) :
    (∃ result, (WebPageQuery.new contents).doQuery json A gt o o' segment webPageLib invertLib
        sentence = .ok result) ↔
      (∀ word ∈ q.queryWords, AllQuotable word) ∧
        ∀ id, AsMany invertLib q.queryWords id → Shows webPageLib invertLib q.queryWords id := by
  -- there is a query word when there is a page
  have hne : ∀ id, AsMany invertLib q.queryWords id → q.queryWords ≠ [] := by
    intro id hid hnil
    rw [hnil] at hid
    exact absurd hid.1 List.not_mem_nil
  have hresult : ∀ q' : WebPageQuery R, q'.queryWords = q.queryWords →
      (∀ id, id ∈ q'.pageCos.map Prod.snd ↔ AsMany invertLib q.queryWords id) →
      ((∃ result, q'.getQueryResult json webPageLib = .ok result) ↔
        ∀ id, AsMany invertLib q.queryWords id →
          ∀ row, webPageLib.find? (fun row => row.id = id) = some row →
            Presentable q.queryWords row) := by
    intro q' hwords hids
    have hpages : (∃ results, (q'.pageCos.mapM fun elem =>
        pageResult webPageLib q'.queryWords elem.2) = .ok results) ↔
        ∀ id, AsMany invertLib q.queryWords id →
          ∀ row, webPageLib.find? (fun row => row.id = id) = some row →
            Presentable q.queryWords row := by
      rw [Except.exists_mapM_ok, hwords]
      constructor
      · intro h id hid
        obtain ⟨elem, helem, rfl⟩ := List.mem_map.mp ((hids id).mpr hid)
        exact (pageResult_exists_ok (hne _ hid)).mp (h elem helem)
      · intro h elem helem
        have hid := (hids elem.2).mp (List.mem_map_of_mem helem)
        exact (pageResult_exists_ok (hne _ hid)).mpr (h elem.2 hid)
    rw [← hpages]
    exact Except.exists_bind_ok_of_total fun results => ⟨_, rfl⟩
  constructor
  · rintro ⟨result, h⟩
    obtain ⟨q', hrank, hget⟩ := Except.bind_eq_ok.mp h
    obtain ⟨hquotable, hrows⟩ := of_rank_ok hcut hq hrank
    obtain ⟨q'', hrank', hwords, hids⟩ := rank_ok A gt o o' webPageLib hq hquotable hrows
    obtain rfl := Except.ok.inj (hrank.symm.trans hrank')
    exact ⟨hquotable, fun id hid =>
      ⟨hrows id hid, (hresult q' hwords hids).mp ⟨result, hget⟩ id hid⟩⟩
  · rintro ⟨hquotable, hshows⟩
    obtain ⟨q', hrank, hwords, hids⟩ :=
      rank_ok A gt o o' webPageLib hq hquotable fun id hid => (hshows id hid).1
    obtain ⟨result, hget⟩ := (hresult q' hwords hids).mpr fun id hid => (hshows id hid).2
    exact ⟨result, Except.bind_eq_ok.mpr ⟨q', hrank, hget⟩⟩

end LightSearch.WebPageQuery
