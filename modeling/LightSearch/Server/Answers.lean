import LightSearch.Dict.Keywords
import LightSearch.Server.SearchServer
import LightSearch.Utility.PageResult

/-!
# Which requests are answered

The tasks of the server with the recommenders and the page query behind `doParse`. None of the
functions between a worker and these catches anything, so a task that does not reply ends the server.

A request is answered when its two fields are strings and its message can be looked up
(`Site.Answerable`). A run of the server completes, with a reply to each request, exactly when all its
requests are of this kind (`answers_iff`). The caches change nothing about that: what they have was
answered once.

The parsed strings of a JSON text are valid UTF-8.
-/

set_option autoImplicit false

namespace LightSearch

open Cxx EditDistance

variable {R : Type}

/-- What the answers come from: the tables, the stop words of the page query, the segmenter, the
arithmetic of the weights, and the orders of the loops over the maps. -/
structure Site (R : Type) where
  en : DictTables
  cn : DictTables
  webPageLib : List PageRow
  invertLib : List (InvertRow R)
  stopWords : Str
  segment : Str → List Str
  arith : Arith R
  greater : R → R → Bool
  order : Unordered
  order' : Unordered

/-- What `doParse` calls. -/
def Site.backend (json : Json.Text) (site : Site R) : Backend where
  mixed := MixedRecommender.recommender json site.en site.cn
  english := EnRecommender.recommender json site.en
  chinese := ChRecommender.recommender json site.cn
  webPage := (WebPageQuery.new site.stopWords).doQuery json site.arith site.greater site.order
    site.order' site.segment site.webPageLib site.invertLib

/-- The text that is looked up for a message. -/
def lookedUpText (message : Str) : Str :=
  if isPureEnglish message then toLower message else message

/-- The tables in which a character of a message is looked up. -/
def Site.tables (site : Site R) (message str : Str) : DictTables :=
  if isPureEnglish message then site.en
  else if isPureChinese message then site.cn
  else if str.length = 1 then site.en
  else site.cn

/-- A message that has keywords: it can stand between quotes, and no word that is looked up for it has
its last character cut off. -/
def Site.HasKeywords (site : Site R) (message : Str) : Prop :=
  AllQuotable message ∧ ∀ cs, Utf8.encode cs = lookedUpText message →
    ∀ word, LookedUp (site.tables message) cs word → Whole word

/-- A message that has pages: its query words can stand between quotes, and each id with as many rows
for them as there are query words can be shown. -/
def Site.HasPages (site : Site R) (message : Str) : Prop :=
  let q : WebPageQuery R := (WebPageQuery.new site.stopWords).cut site.segment message
  (∀ word ∈ q.queryWords, AllQuotable word) ∧ ∀ id, AsMany site.invertLib q.queryWords id →
    WebPageQuery.Shows site.webPageLib site.invertLib q.queryWords id

/-- A message with an id that can be answered. No page is asked for when the message has a letter, or
has only letters and blanks. -/
def Site.CanAnswer (site : Site R) (messageId message : Str) : Prop :=
  if messageId = lit "1" then site.HasKeywords message
  else isPureEnglish message = true ∨ isPureChinese message = false ∨ site.HasPages message

/-- A text with the two fields as strings, and a message that can be answered. -/
def Site.Answerable (json : Json.Text) (site : Site R) (msg : Str) : Prop :=
  ∃ messageId message, readFields json msg = .ok (messageId, message) ∧
    site.CanAnswer messageId message

/-- The requests among some events. -/
def requests {m : Nat} (events : List (Event m)) : List Str :=
  events.filterMap fun event =>
    match event with
    | .request _ msg => some msg
    | .updateCache => none

/-- The strings of a parsed text are valid UTF-8. -/
def ParsesUtf8 (json : Json.Text) : Prop :=
  ∀ text j, json.parse text = .ok j → ∀ key value, j.getString key = .ok value →
    ∃ cs, Utf8.encode cs = value

/-! ## One request -/

section Task

variable {json : Json.Text} {site : Site R} {messageId message : Str}

/-- An English message is looked up by its letters and blanks, and these can stand between quotes. -/
theorem pureEnglish_bytes (h : isPureEnglish message = true) :
    AllQuotable message ∧ AllQuotable (toLower message) ∧ ∀ ch ∈ toLower message, ch < 128 := by
  have hbyte : ∀ ch : UInt8, (isalpha ch || decide (ch = blank)) = true → Quotable ch ∧
      Quotable (if isupper ch then tolower ch else ch) ∧
      (if isupper ch then tolower ch else ch) < 128 := forall_byte (by decide +kernel)
  have hall : ∀ ch ∈ message, _ := fun ch hch => hbyte ch (List.all_eq_true.mp h ch hch)
  refine ⟨fun ch hch => (hall ch hch).1, fun ch hch => ?_, fun ch hch => ?_⟩
  · obtain ⟨ch', hch', rfl⟩ := List.mem_map.mp hch
    exact (hall ch' hch').2.1
  · obtain ⟨ch', hch', rfl⟩ := List.mem_map.mp hch
    exact (hall ch' hch').2.2

/-- **The keywords of a message.** -/
theorem keywords_answer (hmessage : ∃ cs, Utf8.encode cs = message) :
    (∃ reply, doParseFields json (site.backend json) (lit "1") message = .ok reply) ↔
      site.HasKeywords message := by
  rw [doParseFields_keywords_exists_ok]
  unfold Site.HasKeywords lookedUpText
  have htables : ∀ tables : Str → DictTables, site.tables message = tables → ∀ cs : List Char,
      (∀ word, LookedUp tables cs word → Whole word) ↔
        ∀ cs', Utf8.encode cs' = Utf8.encode cs →
          ∀ word, LookedUp (site.tables message) cs' word → Whole word := by
    rintro _ rfl cs
    refine ⟨fun h cs' heq => ?_, fun h => h cs rfl⟩
    rw [Utf8.encode_injective heq]
    exact h
  by_cases henglish : isPureEnglish message = true
  · -- letters and blanks
    obtain ⟨hquotable, hlower, hascii⟩ := pureEnglish_bytes henglish
    obtain ⟨cs, hcs, hsize⟩ := Utf8.encode_ascii hascii
    have hsite : site.tables message = fun _ => site.en := by
      funext str
      exact if_pos henglish
    simp only [henglish, ↓reduceIte]
    rw [← hcs, and_iff_right hquotable, ← htables _ hsite cs]
    exact EnRecommender.exists_ok json site.en hsize (hcs ▸ hlower)
  · obtain ⟨cs, rfl⟩ := hmessage
    rw [Bool.not_eq_true] at henglish
    by_cases hchinese : isPureChinese (Utf8.encode cs) = true
    · have hsite : site.tables (Utf8.encode cs) = fun _ => site.cn := by
        funext str
        unfold Site.tables
        rw [henglish, if_neg Bool.false_ne_true, if_pos hchinese]
      simp only [henglish, hchinese, Bool.false_eq_true, ↓reduceIte]
      rw [← htables _ hsite cs]
      exact ChRecommender.exists_ok json site.cn cs
    · rw [Bool.not_eq_true] at hchinese
      have hsite : site.tables (Utf8.encode cs) =
          fun str => if str.length = 1 then site.en else site.cn := by
        funext str
        unfold Site.tables
        rw [henglish, hchinese, if_neg Bool.false_ne_true, if_neg Bool.false_ne_true]
      simp only [henglish, hchinese, Bool.false_eq_true, ↓reduceIte]
      rw [← htables _ hsite cs]
      exact MixedRecommender.exists_ok json site.en site.cn cs

/-- **The pages of a message.** -/
theorem pages_answer (hcut : SymbolsAlone site.segment) (hid : messageId ≠ lit "1") :
    (∃ reply, doParseFields json (site.backend json) messageId message = .ok reply) ↔
      isPureEnglish message = true ∨ isPureChinese message = false ∨ site.HasPages message := by
  rw [doParseFields_web_exists_ok hid]
  refine or_congr_right (or_congr_right ?_)
  exact WebPageQuery.doQuery_exists_ok json site.arith site.greater site.order site.order' hcut
    site.webPageLib site.invertLib site.stopWords message rfl

/-- **Which texts the server without caches replies to.** -/
theorem directTask_exists_ok (hutf8 : ParsesUtf8 json) (hcut : SymbolsAlone site.segment) (msg : Str) :
    (∃ reply, directTask json (site.backend json) msg = .ok reply) ↔ site.Answerable json msg := by
  unfold Site.Answerable
  cases hfields : readFields json msg with
  | error fault =>
    simp only [directTask, hfields, Except.error_bind, reduceCtorEq, false_and, exists_false]
  | ok fields =>
    obtain ⟨messageId, message⟩ := fields
    have hmessage : ∃ cs, Utf8.encode cs = message := by
      obtain ⟨j, hparse, hrest⟩ := Except.bind_eq_ok.mp hfields
      obtain ⟨id, -, hrest⟩ := Except.bind_eq_ok.mp hrest
      obtain ⟨text, htext, heq⟩ := Except.bind_eq_ok.mp hrest
      obtain ⟨rfl, rfl⟩ := Prod.mk.inj (Except.ok.inj heq)
      exact hutf8 msg j hparse _ _ htext
    have hanswer : (∃ reply, doParseFields json (site.backend json) messageId message = .ok reply) ↔
        site.CanAnswer messageId message := by
      unfold Site.CanAnswer
      split
      · next hid => exact hid ▸ keywords_answer hmessage
      · next hid => exact pages_answer hcut hid
    simp only [directTask, hfields, Except.ok_bind]
    rw [Except.exists_bind_ok_of_total fun reply => ⟨_, rfl⟩, hanswer]
    constructor
    · exact fun h => ⟨messageId, message, rfl, h⟩
    · rintro ⟨_, _, heq, h⟩
      obtain ⟨rfl, rfl⟩ := Prod.mk.inj (Except.ok.inj heq)
      exact h

end Task

/-! ## Runs -/

/-- The server without caches replies to a run when it replies to each request. -/
theorem directReplies_exists_ok {m : Nat} {json : Json.Text} {b : Backend} (events : List (Event m)) :
    (∃ replies, directReplies json b events = .ok replies ∧
      replies.length = (requests events).length) ↔
      ∀ msg ∈ requests events, ∃ reply, directTask json b msg = .ok reply := by
  induction events with
  | nil => exact iff_of_true ⟨[], rfl, rfl⟩ fun _ h => absurd h List.not_mem_nil
  | cons event events ih =>
    cases event with
    | updateCache => exact ih
    | request threadID msg =>
      have hrequests : requests (Event.request threadID msg :: events) = msg :: requests events := rfl
      rw [hrequests, List.forall_mem_cons, ← ih]
      rw [directReplies]
      constructor
      · rintro ⟨replies, h, hlen⟩
        obtain ⟨reply, hreply, h⟩ := Except.bind_eq_ok.mp h
        obtain ⟨rest, hrest, heq⟩ := Except.bind_eq_ok.mp h
        obtain rfl := Except.ok.inj heq
        exact ⟨⟨reply, hreply⟩, rest, hrest, Nat.succ.inj hlen⟩
      · rintro ⟨⟨reply, hreply⟩, rest, hrest, hlen⟩
        exact ⟨reply :: rest, Except.bind_eq_ok.mpr ⟨reply, hreply,
          Except.bind_eq_ok.mpr ⟨rest, hrest, rfl⟩⟩, congrArg Nat.succ hlen⟩

/-- A run completes with one reply to each request when the server without caches has them. -/
theorem serve_exists_ok {m : Nat} {json : Json.Text} (hdump : ∀ j, 0 ∉ json.dump j) {b : Backend}
    {s : ServerState m} (hs : Transparent json b s) (events : List (Event m)) :
    (∃ s' replies, Run.run (serve json b) (s, []) events = .ok (s', replies) ∧
      replies.length = (requests events).length) ↔
      ∃ replies, directReplies json b events = .ok replies ∧
        replies.length = (requests events).length := by
  rcases serve_run hdump hs [] events with ⟨fault, hrun, hreplies⟩ | ⟨s', replies, hrun, hreplies, -⟩
  · rw [hrun, hreplies]
    exact iff_of_false (fun ⟨_, _, h, _⟩ => nomatch h) fun ⟨_, h, _⟩ => nomatch h
  · rw [hrun, hreplies]
    constructor
    · rintro ⟨_, _, heq, hlen⟩
      obtain ⟨rfl, rfl⟩ := Prod.mk.inj (Except.ok.inj heq)
      exact ⟨replies, rfl, hlen⟩
    · rintro ⟨_, heq, hlen⟩
      obtain rfl := Except.ok.inj heq
      exact ⟨s', replies, rfl, hlen⟩

/-- **Which runs are answered.** From caches that have only replies of `doParse`, a run completes with
one reply to each request exactly when each request is answerable. -/
theorem answers_iff {m : Nat} {json : Json.Text} (hdump : ∀ j, 0 ∉ json.dump j)
    (hutf8 : ParsesUtf8 json) {site : Site R} (hcut : SymbolsAlone site.segment) {s : ServerState m}
    (hs : Transparent json (site.backend json) s) (events : List (Event m)) :
    (∃ s' replies, Run.run (serve json (site.backend json)) (s, []) events = .ok (s', replies) ∧
      replies.length = (requests events).length) ↔
      ∀ msg ∈ requests events, site.Answerable json msg := by
  rw [serve_exists_ok hdump hs, directReplies_exists_ok]
  exact forall₂_congr fun msg _ => directTask_exists_ok hutf8 hcut msg

/-! ## A site -/

/-- In dictionaries without cut off words, a message has keywords when it can stand between quotes. -/
theorem hasKeywords_iff_of_whole {site : Site R} (hen : ∀ row ∈ site.en.dict, Whole row.word)
    (hcn : ∀ row ∈ site.cn.dict, Whole row.word) {message : Str} :
    site.HasKeywords message ↔ AllQuotable message := by
  refine ⟨And.left, fun h => ⟨h, ?_⟩⟩
  rintro cs - word ⟨c, -, frequency, row, hrow, rfl, -⟩
  unfold Site.tables at hrow
  split at hrow
  · exact hen row hrow
  · split at hrow
    · exact hcn row hrow
    · split at hrow
      · exact hen row hrow
      · exact hcn row hrow

/-- One word in each dictionary, and one page. -/
def smallSite : Site Float where
  en := ⟨[⟨1, lit "hello", 3⟩], [⟨lit "h", 1⟩]⟩
  cn := ⟨[⟨1, lit "中国", 2⟩], [⟨lit "国", 1⟩]⟩
  webPageLib := [⟨1, lit "http://one", lit "one", lit "2024 年"⟩]
  invertLib := [⟨lit "2", 1, 0.6⟩, ⟨lit "4", 1, 0.8⟩]
  stopWords := lit "的"
  segment := runes
  arith := doubles
  greater := fun x y => y < x
  order := .asIs
  order' := .asIs

/-- A new server with two workers. -/
def newServer : ServerState 1 :=
  { manager := { caches := fun _ => LRUCache.new 2, file := [] }, redis := fun _ => none }

theorem shallow_parsesUtf8 : ParsesUtf8 Json.shallow := by
  intro text j hparse key value hvalue
  obtain ⟨cs, hcs, -⟩ := Utf8.encode_ascii (Json.shallow_ascii hparse hvalue)
  exact ⟨cs, hcs⟩

theorem smallSite_keywords {message : Str} : smallSite.HasKeywords message ↔ AllQuotable message :=
  hasKeywords_iff_of_whole (by decide) (by decide)

/-- The page of the small site is found for its digits. -/
theorem smallSite_pages : smallSite.HasPages (lit "24") := by
  have hwords : ((WebPageQuery.new smallSite.stopWords : WebPageQuery Float).cut smallSite.segment
      (lit "24")).queryWords = [lit "2", lit "4"] := by decide
  unfold Site.HasPages
  dsimp only
  rw [hwords]
  refine ⟨by decide, fun id hid => ?_⟩
  have hids : [lit "2", lit "4"].flatMap (selectIds smallSite.invertLib) = [1, 1] := rfl
  have hone : id = 1 := by
    have hmem := hid.1
    rw [hids] at hmem
    simpa using hmem
  subst hone
  have hplain : ∀ word ∈ [lit "2", lit "4"], ∀ ch ∈ word, Regex.Plain ch := by decide
  refine ⟨by decide, fun row hrow => ?_⟩
  have hpage : row = ⟨1, lit "http://one", lit "one", lit "2024 年"⟩ := (Option.some.inj hrow).symm
  have hdesc : (WebPageQuery.removeBlanks (lit "2024 年")).check
      (fun desc => decide (WebPageQuery.Cuttable desc)) = true := by decide
  obtain ⟨desc, hblanks, hcuttable⟩ := Except.exists_of_check hdesc
  subst hpage
  exact ⟨⟨desc, hblanks, of_decide_eq_true hcuttable⟩,
    fun word hword => Regex.compiles_of_plain (hplain word hword)⟩

/-- A keyword request and a page request, both answered. -/
theorem answers_iff_two :
    let events : List (Event 1) :=
      [.request 0 (Json.shallow.dump (packJson (lit "1") (lit "Hello"))), .updateCache,
        .request 1 (Json.shallow.dump (packJson (lit "2") (lit "24")))]
    ((∀ j, 0 ∉ Json.shallow.dump j) ∧ ParsesUtf8 Json.shallow ∧ SymbolsAlone smallSite.segment ∧
      Transparent Json.shallow (smallSite.backend Json.shallow) newServer) ∧
    ((∃ s' replies, Run.run (serve Json.shallow (smallSite.backend Json.shallow)) (newServer, [])
        events = .ok (s', replies) ∧ replies.length = (requests events).length) ↔
      ∀ msg ∈ requests events, smallSite.Answerable Json.shallow msg) ∧
    ∀ msg ∈ requests events, smallSite.Answerable Json.shallow msg := by
  intro events
  have hnew : Transparent Json.shallow (smallSite.backend Json.shallow) newServer :=
    transparent_new []
  refine ⟨⟨Json.shallow_clean, shallow_parsesUtf8, runes_symbolsAlone, hnew⟩,
    answers_iff Json.shallow_clean shallow_parsesUtf8 runes_symbolsAlone hnew events, ?_⟩
  have hkeyword : readFields Json.shallow (Json.shallow.dump (packJson (lit "1") (lit "Hello"))) =
      .ok (lit "1", lit "Hello") := rfl
  have hpages : readFields Json.shallow (Json.shallow.dump (packJson (lit "2") (lit "24"))) =
      .ok (lit "2", lit "24") := rfl
  intro msg hmsg
  have hcases : msg = Json.shallow.dump (packJson (lit "1") (lit "Hello")) ∨
      msg = Json.shallow.dump (packJson (lit "2") (lit "24")) := by
    simpa [events, requests] using hmsg
  rcases hcases with rfl | rfl
  · exact ⟨_, _, hkeyword, smallSite_keywords.mpr (by decide)⟩
  · exact ⟨_, _, hpages, .inr (.inr smallSite_pages)⟩

/-- A request for the single quote ends the server, and so does a text that is no JSON. -/
theorem quote_unanswered :
    (¬ ∃ s' replies, Run.run (serve Json.shallow (smallSite.backend Json.shallow)) (newServer, [])
      [.request 0 (Json.shallow.dump (packJson (lit "1") (lit "'")))] = .ok (s', replies)) ∧
    ¬ ∃ s' replies, Run.run (serve Json.shallow (smallSite.backend Json.shallow)) (newServer, [])
      [.request 0 (lit "hello")] = .ok (s', replies) := by
  have hquote : ¬ smallSite.Answerable Json.shallow
      (Json.shallow.dump (packJson (lit "1") (lit "'"))) := by
    rintro ⟨messageId, message, hfields, hanswer⟩
    have hread : readFields Json.shallow (Json.shallow.dump (packJson (lit "1") (lit "'"))) =
        .ok (lit "1", lit "'") := rfl
    obtain ⟨rfl, rfl⟩ := Prod.mk.inj (Except.ok.inj (hread.symm.trans hfields))
    exact absurd (smallSite_keywords.mp hanswer) (by decide)
  have hmalformed : ¬ smallSite.Answerable Json.shallow (lit "hello") := by
    rintro ⟨messageId, message, hfields, -⟩
    have hread : readFields Json.shallow (lit "hello") =
        .error (.thrown (lit "json::parse_error")) := rfl
    cases hread.symm.trans hfields
  have hnew : Transparent Json.shallow (smallSite.backend Json.shallow) newServer :=
    transparent_new []
  have hfails : ∀ msg, ¬ smallSite.Answerable Json.shallow msg →
      ¬ ∃ s' replies, Run.run (serve Json.shallow (smallSite.backend Json.shallow)) (newServer, [])
        [.request 0 msg] = .ok (s', replies) := by
    rintro msg hmsg ⟨s', replies, hrun⟩
    rcases serve_run Json.shallow_clean hnew [] [.request 0 msg] with
      ⟨fault, hfault, -⟩ | ⟨_, _, -, hdirect, -⟩
    · cases hrun.symm.trans hfault
    · obtain ⟨reply, hreply, -⟩ := Except.bind_eq_ok.mp hdirect
      exact hmsg ((directTask_exists_ok shallow_parsesUtf8 runes_symbolsAlone msg).mp ⟨reply, hreply⟩)
  exact ⟨hfails _ hquote, hfails _ hmalformed⟩

end LightSearch
