import LightSearch.Lib.Json
import LightSearch.Dict.Recommender

/-!
# The protocol of the server

A request is a JSON object with a message id and a message. Id `1` asks for keywords and every other
id for web pages; what answers depends on whether the message is all English, all Chinese or mixed.
The three recommenders and the page query are parameters here: they read the database, and
`doParse` only chooses among them and packs what they return.
-/

set_option autoImplicit false

namespace LightSearch

open Cxx

/-- What `doParse` calls: `recommender` of the three recommenders, and `doQuery` of `WebPageQuery`. -/
structure Backend where
  mixed : Str → Except Fault Str
  english : Str → Except Fault Str
  chinese : Str → Except Fault Str
  webPage : Str → Except Fault Str

def isPureEnglish (msg : Str) : Bool := msg.all fun ch => isalpha ch || ch = blank

def isPureChinese (msg : Str) : Bool := msg.all fun ch => !isalpha ch

/-- The fields of a reply, in the order of their keys. -/
def packJson (msgId msg : Str) : Json :=
  .object [(lit "message", .string msg), (lit "messageId", .string msgId)]

def packMsgToJson (json : Json.Text) (msgId msg : Str) : Str := json.dump (packJson msgId msg)

/-- `doParse` after the two fields of the request were read. -/
def doParseFields (json : Json.Text) (b : Backend) (messageId message : Str) : Except Fault Str :=
  if !isPureEnglish message && !isPureChinese message then
    if messageId = lit "1" then do
      let recoResult ← b.mixed message
      .ok (if recoResult = [] then [] else packMsgToJson json (lit "100") recoResult)
    else .ok []
  else if isPureEnglish message then
    if messageId = lit "1" then do
      let recoResult ← b.english (toLower message)
      .ok (if recoResult = [] then [] else packMsgToJson json (lit "100") recoResult)
    else .ok (packMsgToJson json (lit "200") [])
  else
    if messageId = lit "1" then do
      let recoResult ← b.chinese message
      .ok (if recoResult = [] then [] else packMsgToJson json (lit "100") recoResult)
    else do
      let webResult ← b.webPage message
      .ok (if webResult = [] then [] else packMsgToJson json (lit "200") webResult)

/-- The message id and the message of a request. -/
def readFields (json : Json.Text) (msg : Str) : Except Fault (Str × Str) := do
  let msgJson ← json.parse msg
  let messageId ← msgJson.getString (lit "messageId")
  let message ← msgJson.getString (lit "message")
  .ok (messageId, message)

def doParse (json : Json.Text) (b : Backend) (msg : Str) : Except Fault Str := do
  let (messageId, message) ← readFields json msg
  doParseFields json b messageId message

variable {json : Json.Text} {b : Backend} {messageId message reply : Str}

/-- `doParse` on a request whose fields can be read. -/
theorem doParse_of_fields {msg : Str} (h : readFields json msg = .ok (messageId, message)) :
    doParse json b msg = doParseFields json b messageId message := by
  simp only [doParse, h, Except.ok_bind]

/-- **Only the choice between keywords and pages looks at the id**: all ids other than `1` get the
same reply. -/
theorem doParseFields_web {other : Str} (hid : messageId ≠ lit "1") (hother : other ≠ lit "1") :
    doParseFields json b messageId message = doParseFields json b other message := by
  simp only [doParseFields, if_neg hid, if_neg hother]

/-- The id of the reply to a request. -/
def replyId (messageId : Str) : Str := if messageId = lit "1" then lit "100" else lit "200"

/-- The function that returned a text for a request was one of those for its id. -/
inductive Backend.Returned (b : Backend) (messageId message text : Str) : Prop where
  | mixed (hid : messageId = lit "1") (h : b.mixed message = .ok text)
  | english (hid : messageId = lit "1") (h : b.english (toLower message) = .ok text)
  | chinese (hid : messageId = lit "1") (h : b.chinese message = .ok text)
  | webPage (hid : messageId ≠ lit "1") (h : b.webPage message = .ok text)

/-- **What `doParse` returns**: nothing, or a message with the id for the request, which has what was
returned for it or is empty. -/
theorem doParseFields_cases (h : doParseFields json b messageId message = .ok reply) :
    reply = [] ∨ ∃ text, reply = packMsgToJson json (replyId messageId) text ∧
      (text = [] ∨ b.Returned messageId message text) := by
  -- a branch that asks a recommender or the pages packs what it returns, or returns the empty string
  have packed : ∀ {x : Except Fault Str} {id : Str}, id = replyId messageId →
      (∀ text, x = .ok text → b.Returned messageId message text) →
      (x >>= fun r => Except.ok (if r = [] then [] else packMsgToJson json id r)) = .ok reply →
      reply = [] ∨ ∃ text, reply = packMsgToJson json (replyId messageId) text ∧
        (text = [] ∨ b.Returned messageId message text) := by
    intro x id hid hreturned hbind
    obtain ⟨text, htext, heq⟩ := Except.bind_eq_ok.mp hbind
    obtain rfl := Except.ok.inj heq
    split
    · exact .inl rfl
    · exact .inr ⟨text, by rw [hid], .inr (hreturned text htext)⟩
  have hkeywords : messageId = lit "1" → lit "100" = replyId messageId := fun hid => (if_pos hid).symm
  have hweb : messageId ≠ lit "1" → lit "200" = replyId messageId := fun hid => (if_neg hid).symm
  unfold doParseFields at h
  split at h
  · split at h
    · next hid => exact packed (hkeywords hid) (fun text htext => .mixed hid htext) h
    · exact .inl (Except.ok.inj h).symm
  · split at h
    · split at h
      · next hid => exact packed (hkeywords hid) (fun text htext => .english hid htext) h
      · next hid => exact .inr ⟨[], by rw [← hweb hid]; exact (Except.ok.inj h).symm, .inl rfl⟩
    · split at h
      · next hid => exact packed (hkeywords hid) (fun text htext => .chinese hid htext) h
      · next hid => exact packed (hweb hid) (fun text htext => .webPage hid htext) h

/-- A request for keywords has a reply when the recommender for its message has one. -/
theorem doParseFields_keywords_exists_ok :
    (∃ reply, doParseFields json b (lit "1") message = .ok reply) ↔
      ∃ recoResult, (if isPureEnglish message then b.english (toLower message)
        else if isPureChinese message then b.chinese message
        else b.mixed message) = .ok recoResult := by
  have packed : ∀ x : Except Fault Str,
      (∃ reply, (x >>= fun r => Except.ok (if r = [] then [] else packMsgToJson json (lit "100") r)) =
        .ok reply) ↔ ∃ recoResult, x = .ok recoResult :=
    fun x => Except.exists_bind_ok_of_total fun r => ⟨_, rfl⟩
  unfold doParseFields
  cases henglish : isPureEnglish message with
  | true => exact packed (b.english (toLower message))
  | false =>
    cases hchinese : isPureChinese message with
    | true => exact packed (b.chinese message)
    | false => exact packed (b.mixed message)

/-- A request with another id has a reply, except when its pages are asked for and the query has
none. -/
theorem doParseFields_web_exists_ok (hid : messageId ≠ lit "1") :
    (∃ reply, doParseFields json b messageId message = .ok reply) ↔
      isPureEnglish message = true ∨ isPureChinese message = false ∨
        ∃ webResult, b.webPage message = .ok webResult := by
  unfold doParseFields
  simp only [if_neg hid]
  cases henglish : isPureEnglish message with
  | true =>
    rw [Bool.not_true, Bool.false_and, if_neg Bool.false_ne_true]
    exact iff_of_true ⟨_, rfl⟩ (.inl rfl)
  | false =>
    cases hchinese : isPureChinese message with
    | true =>
      simp only [Bool.not_true, Bool.and_false, Bool.false_eq_true, ↓reduceIte, reduceCtorEq, false_or]
      exact Except.exists_bind_ok_of_total fun r => ⟨_, rfl⟩
    | false => exact iff_of_true ⟨_, rfl⟩ (.inr (.inl rfl))

end LightSearch
