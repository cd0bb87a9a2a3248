import LightSearch.Lib.JsonText
import LightSearch.Server.Answers

/-!
# The client

The client shows a reply: a JSON object with an id and a message, where the message of a reply to a
request for keywords or pages is empty or is JSON itself, with a list of strings. Both texts are parsed
and converted without a check, and nothing catches what these throw.

Every reply of the server can be shown (`replies_readable`). A reply comes from one of the branches of
`doParse`, from a cache, or from `threadTask` itself when `doParse` returns nothing, and each of these
chooses the id; what the recommenders and the page query return is a text of one list under one key
(`site_lists`).
-/

set_option autoImplicit false

namespace LightSearch

open Cxx

/-! ## What the client does with a reply -/

/-- What the client prints for a reply. The pages are printed five at a time, as the user asks for
them. -/
inductive Shown where
  | keywords (keywords : List Str)
  | noKeywords
  | webpages (webpages : List Str)
  | noWebpages
  | nothing

def handleWebPages (json : Json.Text) (msg : Str) : Except Fault Shown := do
  let websJson ← json.parse msg
  let value ← websJson.field (lit "WebPage")
  let webpages ← value.toStrings
  .ok (.webpages webpages)

def handleMessage (json : Json.Text) (msg : Str) : Except Fault Shown := do
  let (messageId, message) ← readFields json msg
  if messageId = lit "100" then
    if message = [] then .ok .noKeywords
    else do
      let wordsJson ← json.parse message
      let value ← wordsJson.field (lit "Keywords")
      let keywords ← value.toStrings
      .ok (.keywords keywords)
  else if messageId = lit "200" then
    if message = [] then .ok .noWebpages
    else handleWebPages json message
  else .ok .nothing

/-! ## Readable replies -/

/-- The key of the list in the reply to a request. -/
def replyKey (messageId : Str) : Str :=
  if messageId = lit "1" then lit "Keywords" else lit "WebPage"

/-- The object with a list of strings under one key. -/
def listJson (key : Str) (items : List Str) : Json :=
  .object [(key, .array (items.map .string))]

/-- A reply to a request with an id: a message with the id for it, and nothing or a list of strings
under the key for it. -/
def Carries (json : Json.Text) (messageId reply : Str) : Prop :=
  ∃ text, json.parse reply = .ok (packJson (replyId messageId) text) ∧
    (text = [] ∨ ∃ items, json.parse text = .ok (listJson (replyKey messageId) items))

/-- A reply to a well-formed request that the client can read and show. -/
def Readable (json : Json.Text) (msg reply : Str) : Prop :=
  ∃ messageId message, readFields json msg = .ok (messageId, message) ∧
    Carries json messageId reply ∧ ∃ shown, handleMessage json reply = .ok shown

variable {json : Json.Text} {messageId reply : Str}

theorem readFields_pack {msg id text : Str} (h : json.parse msg = .ok (packJson id text)) :
    readFields json msg = .ok (id, text) := by
  rw [readFields, h]
  rfl

theorem field_listJson (key : Str) (items : List Str) :
    (listJson key items).field key = .ok (.array (items.map .string)) := by
  rw [listJson, Json.field]
  dsimp only [List.find?_cons]
  rw [decide_eq_true rfl]

/-- The client shows what carries a list. -/
theorem handleMessage_carries (h : Carries json messageId reply) :
    ∃ shown, handleMessage json reply = .ok shown := by
  obtain ⟨text, hreply, htext⟩ := h
  unfold handleMessage
  rw [readFields_pack hreply]
  dsimp only [Except.ok_bind]
  unfold replyId replyKey at *
  by_cases hid : messageId = lit "1"
  · rw [if_pos hid] at htext ⊢
    rw [if_pos rfl]
    split
    · exact ⟨_, rfl⟩
    · next hne =>
      obtain ⟨items, hparse⟩ := htext.resolve_left hne
      rw [hparse]
      simp only [Except.ok_bind, field_listJson, Json.toStrings_texts]
      exact ⟨_, rfl⟩
  · rw [if_neg hid] at htext ⊢
    rw [if_neg (by decide), if_pos rfl]
    split
    · exact ⟨_, rfl⟩
    · next hne =>
      obtain ⟨items, hparse⟩ := htext.resolve_left hne
      rw [handleWebPages, hparse]
      simp only [Except.ok_bind, field_listJson, Json.toStrings_texts]
      exact ⟨_, rfl⟩

/-! ## What the server packs -/

/-- A text of a list under a key, or none. -/
def Lists (json : Json.Text) (key text : Str) : Prop :=
  text = [] ∨ ∃ items, text = json.dump (listJson key items)

/-- A message of the server is read as it was packed. -/
theorem parse_packMsgToJson (hjson : json.Laws) {id text : Str} (hid : Utf8.Valid id)
    (htext : Utf8.Valid text) : json.parse (packMsgToJson json id text) = .ok (packJson id text) := by
  have hkeyed : Json.Keyed [(lit "message", .text text), (lit "messageId", .text id)] := by
    have hlt : lit "message" < lit "messageId" := by decide
    refine ⟨List.pairwise_pair.mpr hlt, fun f hf => ?_⟩
    rcases List.mem_pair.mp hf with rfl | rfl
    · exact Utf8.valid_lit _
    · exact Utf8.valid_lit _
  have hparse := hjson.parse_dump _ hkeyed
  simp only [List.map_cons, List.map_nil, Json.Value.ignore, hid.ignore, htext.ignore] at hparse
  exact hparse

theorem keyed_list {key : Str} (hkey : Utf8.Valid key) (items : List Str) :
    Json.Keyed [(key, .texts items)] where
  sorted := List.pairwise_singleton _ _
  valid f hf := by
    obtain rfl := List.mem_singleton.mp hf
    exact hkey

/-- The text of a list is UTF-8, and a list is read from it. -/
theorem Lists.read (hjson : json.Laws) {key text : Str} (hkey : Utf8.Valid key)
    (h : Lists json key text) :
    Utf8.Valid text ∧ (text = [] ∨ ∃ items, json.parse text = .ok (listJson key items)) := by
  rcases h with rfl | ⟨items, rfl⟩
  · exact ⟨Utf8.valid_nil, .inl rfl⟩
  · exact ⟨hjson.dump_valid _ (keyed_list hkey items),
      .inr ⟨items.map Utf8.ignore, hjson.parse_dump _ (keyed_list hkey items)⟩⟩

/-- **A packed list is what the client reads.** -/
theorem carries_pack (hjson : json.Laws) {text : Str} (h : Lists json (replyKey messageId) text) :
    Carries json messageId (packMsgToJson json (replyId messageId) text) := by
  have hid : Utf8.Valid (replyId messageId) := by
    unfold replyId
    split <;> exact Utf8.valid_lit _
  have hkey : Utf8.Valid (replyKey messageId) := by
    unfold replyKey
    split <;> exact Utf8.valid_lit _
  obtain ⟨htext, hread⟩ := h.read hjson hkey
  exact ⟨text, parse_packMsgToJson hjson hid htext, hread⟩

/-- All ids but `1` have the same replies. -/
theorem Carries.other {other : Str} (h : Carries json other reply) (hother : other ≠ lit "1")
    (hid : messageId ≠ lit "1") : Carries json messageId reply := by
  unfold Carries replyId replyKey at *
  rw [if_neg hother, if_neg hother] at h
  rw [if_neg hid, if_neg hid]
  exact h

/-- What `doParse` calls returns texts of lists: the recommenders of keywords, and the page query of
pages. -/
structure Backend.Lists (json : Json.Text) (b : Backend) : Prop where
  mixed : ∀ message text, b.mixed message = .ok text → LightSearch.Lists json (lit "Keywords") text
  english : ∀ message text, b.english message = .ok text →
    LightSearch.Lists json (lit "Keywords") text
  chinese : ∀ message text, b.chinese message = .ok text →
    LightSearch.Lists json (lit "Keywords") text
  webPage : ∀ message text, b.webPage message = .ok text → LightSearch.Lists json (lit "WebPage") text

theorem Backend.Lists.returned {b : Backend} (hb : b.Lists json) {message text : Str}
    (h : b.Returned messageId message text) : LightSearch.Lists json (replyKey messageId) text := by
  unfold replyKey
  cases h with
  | mixed hid h => exact (if_pos hid).symm ▸ hb.mixed _ _ h
  | english hid h => exact (if_pos hid).symm ▸ hb.english _ _ h
  | chinese hid h => exact (if_pos hid).symm ▸ hb.chinese _ _ h
  | webPage hid h => exact (if_neg hid).symm ▸ hb.webPage _ _ h

/-- A reply of `doParse` carries a list. -/
theorem carries_doParse (hjson : json.Laws) {b : Backend} (hb : b.Lists json) {message : Str}
    (h : doParseFields json b messageId message = .ok reply) (hne : reply ≠ []) :
    Carries json messageId reply := by
  obtain ⟨text, rfl, htext⟩ := (doParseFields_cases h).resolve_left hne
  apply carries_pack hjson
  rcases htext with rfl | hreturned
  · exact .inl rfl
  · exact hb.returned hreturned

/-! ## Runs of the server -/

variable {m : Nat} {b : Backend}

/-- The caches have only replies of `doParse`, for any messages: the LRU caches replies to requests for
keywords, and Redis replies to the others. -/
def Stocked (json : Json.Text) (b : Backend) (s : ServerState m) : Prop :=
  s.Holds (fun e => ∃ message, doParseFields json b (lit "1") message = .ok e.2)
    (fun e => ∃ id message, id ≠ lit "1" ∧ doParseFields json b id message = .ok e.2)

/-- **One task**: its reply can be read, and the caches keep only replies of `doParse`. -/
theorem task_readable (hjson : json.Laws) (hb : b.Lists json) {s s' : ServerState m}
    (hs : Stocked json b s) {threadID : Fin (m + 1)} {msg : Str}
    (htask : threadTask json b s threadID msg = .ok (s', reply)) :
    Stocked json b s' ∧ Readable json msg reply := by
  cases hfields : readFields json msg with
  | error fault =>
    simp only [threadTask, hfields, Except.error_bind, reduceCtorEq] at htask
  | ok fields =>
    obtain ⟨messageId, message⟩ := fields
    have houtcome := task_outcome (fun e he => by
        obtain ⟨_, _, -, hparse⟩ := he
        exact doParseFields_clean hjson.dump_clean hparse) hs threadID hfields
      (fun reply hparse _ => ⟨message, hparse⟩) (fun id hid reply hparse _ => ⟨id, message, hid, hparse⟩)
    rcases houtcome with ⟨fault, hfault, -⟩ | ⟨s₁, reply₁, hok, hs', hreply⟩
    · cases hfault.symm.trans htask
    · obtain ⟨rfl, rfl⟩ := Prod.mk.inj (Except.ok.inj (hok.symm.trans htask))
      have hcarries : Carries json messageId reply₁ := by
        rcases hreply with ⟨parsed, hparse, rfl⟩ | ⟨hne, hentry⟩
        · split
          · exact carries_pack hjson (.inl rfl)
          · next hne => exact carries_doParse hjson hb hparse hne
        · rcases hentry with ⟨rfl, other, hparse⟩ | ⟨hid, id, other, hother, hparse⟩
          · exact carries_doParse hjson hb hparse hne
          · exact (carries_doParse hjson hb hparse hne).other hother hid
      exact ⟨hs', messageId, message, hfields, hcarries, handleMessage_carries hcarries⟩

/-- The replies of a run, after those that were sent before it. -/
theorem run_readable (hjson : json.Laws) (hb : b.Lists json) {s s' : ServerState m}
    (hs : Stocked json b s) {sent replies : List Str} {events : List (Event m)}
    (hrun : Run.run (serve json b) (s, sent) events = .ok (s', replies)) :
    ∃ new, replies = sent ++ new ∧ List.Forall₂ (Readable json) (requests events) new := by
  induction events generalizing s sent with
  | nil =>
    obtain ⟨rfl, rfl⟩ := Prod.mk.inj (Except.ok.inj hrun)
    exact ⟨[], (List.append_nil _).symm, .nil⟩
  | cons event events ih =>
    rw [Run.run_cons] at hrun
    obtain ⟨⟨s₁, sent₁⟩, hstep, hrest⟩ := Except.bind_eq_ok.mp hrun
    cases event with
    | updateCache =>
      obtain ⟨manager, hupdate, hcaches⟩ := updateCache_filled hs.caches
      simp only [serve, hupdate, Except.ok_bind] at hstep
      obtain ⟨rfl, rfl⟩ := Prod.mk.inj (Except.ok.inj hstep)
      have hs₁ : Stocked json b { s with manager := manager } := ⟨hcaches, hs.redis⟩
      exact ih hs₁ hrest
    | request threadID msg =>
      obtain ⟨⟨state, reply⟩, htask, heq⟩ := Except.bind_eq_ok.mp hstep
      obtain ⟨rfl, rfl⟩ := Prod.mk.inj (Except.ok.inj heq)
      obtain ⟨hs₁, hreply⟩ := task_readable hjson hb hs htask
      obtain ⟨new, rfl, hnew⟩ := ih hs₁ hrest
      exact ⟨reply :: new, by rw [List.append_assoc, List.singleton_append], .cons hreply hnew⟩

/-! ## The site -/

theorem keywords_lists {queryWord text : Str} {queryRes : QueryRes}
    (h : keywords json queryWord queryRes = .ok text) : Lists json (lit "Keywords") text := by
  unfold keywords at h
  split at h
  · exact .inl (Except.ok.inj h).symm
  · obtain ⟨candis, -, h⟩ := Except.bind_eq_ok.mp h
    obtain ⟨ret, -, h⟩ := Except.bind_eq_ok.mp h
    exact .inr ⟨ret, (Except.ok.inj h).symm⟩

/-- **The recommenders and the page query return lists.** -/
theorem site_lists {R : Type} (json : Json.Text) (site : Site R) : (site.backend json).Lists json where
  mixed message text h := by
    obtain ⟨queryRes, -, h⟩ := Except.bind_eq_ok.mp h
    exact keywords_lists h
  english message text h := by
    obtain ⟨queryRes, -, h⟩ := Except.bind_eq_ok.mp h
    exact keywords_lists h
  chinese message text h := by
    obtain ⟨queryRes, -, h⟩ := Except.bind_eq_ok.mp h
    exact keywords_lists h
  webPage message text h := by
    obtain ⟨q, -, h⟩ := Except.bind_eq_ok.mp h
    obtain ⟨results, -, h⟩ := Except.bind_eq_ok.mp h
    obtain rfl := Except.ok.inj h
    split
    · exact .inr ⟨_, rfl⟩
    · exact .inl rfl

/-- **Every reply can be read.** From caches that have only replies of `doParse`, in any run of the
server, each request was well-formed, and its reply is a message with the id for the request, which is
empty or has a list of strings under the key for it; the client shows it. -/
theorem replies_readable (hjson : json.Laws) {R : Type} {site : Site R} {s s' : ServerState m}
    (hs : Stocked json (site.backend json) s) {events : List (Event m)} {replies : List Str}
    (hrun : Run.run (serve json (site.backend json)) (s, []) events = .ok (s', replies)) :
    List.Forall₂ (Readable json) (requests events) replies := by
  obtain ⟨new, rfl, hnew⟩ := run_readable hjson (site_lists json site) hs hrun
  exact hnew

/-- New caches have no entries. -/
theorem stocked_new (file : Str) :
    Stocked (m := m) json b
      { manager := { caches := fun _ => LRUCache.new (m + 1), file := file }, redis := fun _ => none }
    where
  caches := fun _ => LRUCache.filled_new (Nat.succ_pos m)
  redis := fun _ _ hval => nomatch hval

/-- Keywords and pages of the small site, where the third request is a hit. -/
theorem replies_readable_three :
    let pack := packMsgToJson Json.compact
    let events : List (Event 1) :=
      [.request 0 (pack (lit "1") (lit "Hello")), .request 1 (pack (lit "2") (lit "24")),
        .updateCache, .request 0 (pack (lit "1") (lit "Hello"))]
    ∃ s' replies, (Json.compact.Laws ∧
        Stocked Json.compact (smallSite.backend Json.compact) newServer ∧
        Run.run (serve Json.compact (smallSite.backend Json.compact)) (newServer, []) events =
          .ok (s', replies)) ∧
      List.Forall₂ (Readable Json.compact) (requests events) replies := by
  intro pack events
  have hlaws := Json.compact_laws
  have hstocked : Stocked Json.compact (smallSite.backend Json.compact) newServer := stocked_new []
  have hanswered : ∀ id message : String,
      (∃ reply, doParseFields Json.compact (smallSite.backend Json.compact) (lit id) (lit message) =
        .ok reply) →
      ∃ reply, directTask Json.compact (smallSite.backend Json.compact) (pack (lit id) (lit message)) =
        .ok reply := by
    rintro id message ⟨reply, hreply⟩
    rw [directTask, readFields_pack
      (parse_packMsgToJson hlaws (Utf8.valid_lit id) (Utf8.valid_lit message))]
    dsimp only [Except.ok_bind]
    rw [hreply]
    exact ⟨_, rfl⟩
  have hkeyword := hanswered "1" "Hello" ((keywords_answer (Utf8.valid_lit "Hello")).mpr
    (smallSite_keywords.mpr (by decide)))
  have hpages := hanswered "2" "24" ((pages_answer runes_symbolsAlone (by decide)).mpr
    (.inr (.inr smallSite_pages)))
  obtain ⟨s', replies, hrun, -⟩ := (serve_exists_ok hlaws.dump_clean (transparent_new []) events).mpr
    ((directReplies_exists_ok events).mpr (by
      intro msg hmsg
      have hcases : msg = pack (lit "1") (lit "Hello") ∨ msg = pack (lit "2") (lit "24") ∨
          msg = pack (lit "1") (lit "Hello") := by
        simpa [events, requests] using hmsg
      rcases hcases with rfl | rfl | rfl
      · exact hkeyword
      · exact hpages
      · exact hkeyword))
  exact ⟨s', replies, ⟨hlaws, hstocked, hrun⟩, replies_readable hlaws hstocked hrun⟩

end LightSearch
