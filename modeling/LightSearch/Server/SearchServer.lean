import LightSearch.Server.ProtocolParser
import LightSearch.Utility.CacheManager
import LightSearch.Utility.LRUContents

/-!
# The tasks of the server

`threadTask` answers a request from a cache, or else with `doParse`: keywords from the LRU cache of
the worker, pages from Redis. Both stores are keyed by the message alone. That is enough because the
LRU caches only ever see id `1`, and because all other ids have the same reply
(`doParseFields_web`).

What one task does is said once, for entries of any kinds (`task_outcome`): it fails as `doParse` does,
or it replies with what `doParse` returns or with an entry, and the stores still hold such entries.

The server with its caches is compared with one that has none (`directTask`). What the caches keep is
that each entry is a reply of `doParse` for its key (`Transparent`); the entries move between caches
in the updates, and no update makes one up.
-/

set_option autoImplicit false

namespace LightSearch

open Cxx

/-- The caches of the workers with their file, and what Redis holds. -/
structure ServerState (m : Nat) where
  manager : CacheManager m
  redis : Str → Option Str

/-- `RedisServer::get`: the value as a C string, or the empty string. -/
def redisGet (redis : Str → Option Str) (key : Str) : Str :=
  match redis key with
  | some val => cstr val
  | none => []

/-- `RedisServer::put`. -/
def redisPut (redis : Str → Option Str) (key val : Str) : Str → Option Str :=
  Function.update redis key (some val)

variable {m : Nat}

def ServerState.setCaches (s : ServerState m) (caches : Caches (m + 1)) : ServerState m :=
  { s with manager := { s.manager with caches := caches } }

/-- `threadTask` on the thread `threadID`: the state after it, and the reply passed to `sendInLoop`. -/
def threadTask (json : Json.Text) (b : Backend) (s : ServerState m) (threadID : Fin (m + 1))
    (msg : Str) : Except Fault (ServerState m × Str) := do
  let (messageId, message) ← readFields json msg
  if messageId = lit "1" then do
    let (caches, getFromLRU) ← s.manager.caches.get threadID message
    if getFromLRU.length = 0 then do
      let tocMessage ← doParse json b msg
      if tocMessage = [] then .ok (s.setCaches caches, packMsgToJson json (lit "100") tocMessage)
      else do
        let caches ← caches.put threadID message tocMessage false
        .ok (s.setCaches caches, tocMessage)
    else .ok (s.setCaches caches, getFromLRU)
  else
    let result := redisGet s.redis message
    if result.length = 0 then do
      let tocMessage ← doParse json b msg
      if tocMessage ≠ [] then
        .ok ({ s with redis := redisPut s.redis message tocMessage }, tocMessage)
      else .ok (s, packMsgToJson json (lit "200") tocMessage)
    else .ok (s, result)

/-- What happens at the server: a worker executes the task of a request, or the timer updates the
caches. -/
inductive Event (m : Nat) where
  | request (threadID : Fin (m + 1)) (msg : Str)
  | updateCache

/-- The server and the replies it sent, in order, after one more event. -/
def serve (json : Json.Text) (b : Backend) (s : ServerState m × List Str) :
    Event m → Except Fault (ServerState m × List Str)
  | .request threadID msg => do
    let (state, reply) ← threadTask json b s.1 threadID msg
    .ok (state, s.2 ++ [reply])
  | .updateCache => do
    let manager ← updateCache s.1.manager
    .ok ({ s.1 with manager := manager }, s.2)

/-! ## The server without caches -/

/-- The reply of a server that has no caches. -/
def directTask (json : Json.Text) (b : Backend) (msg : Str) : Except Fault Str := do
  let (messageId, message) ← readFields json msg
  let reply ← doParseFields json b messageId message
  .ok (if reply = [] then
      packMsgToJson json (if messageId = lit "1" then lit "100" else lit "200") []
    else reply)

/-- The replies that server sends to the requests among the events. -/
def directReplies (json : Json.Text) (b : Backend) : List (Event m) → Except Fault (List Str)
  | [] => .ok []
  | .request _ msg :: events => do
    let reply ← directTask json b msg
    let replies ← directReplies json b events
    .ok (reply :: replies)
  | .updateCache :: events => directReplies json b events

/-! ## What the caches keep -/

variable {json : Json.Text} {b : Backend}

/-- An entry of an LRU cache is the keyword reply for its key. -/
def Keyword (json : Json.Text) (b : Backend) (e : Str × Str) : Prop :=
  doParseFields json b (lit "1") e.1 = .ok e.2 ∧ e.2 ≠ []

/-- Each entry of each cache is a reply of `doParse` for its key: a keyword reply in the LRU caches,
and a page reply in Redis. -/
structure Transparent (json : Json.Text) (b : Backend) (s : ServerState m) : Prop where
  caches : s.manager.caches.Filled (Keyword json b)
  redis : ∀ key val, s.redis key = some val →
    ∃ id, id ≠ lit "1" ∧ doParseFields json b id key = .ok val

/-- The calls of an update put nothing. -/
theorem puts_updateCalls (P : Str × Str → Prop) : ∀ op ∈ updateCalls m, op.Puts P := by
  intro op hop
  rcases updateCalls_cases hop with ⟨k, rfl⟩ | ⟨j, rfl⟩ | ⟨i, rfl⟩
  · trivial
  · trivial
  · trivial

/-- An update makes no entry up. -/
theorem updateCache_filled {P : Str × Str → Prop} {manager : CacheManager m}
    (h : manager.caches.Filled P) :
    ∃ manager', updateCache manager = .ok manager' ∧ manager'.caches.Filled P := by
  obtain ⟨caches, hrun, hcaches⟩ := Run.run_total (Caches.Filled P) (Call.Puts P)
    (fun _ _ h hop => filled_call h hop) h (updateCalls m) (puts_updateCalls P)
  exact ⟨⟨caches, (caches 0).writeToFile⟩, by simp only [updateCache, hrun, Except.ok_bind], hcaches⟩

/-- The text of a reply has no NUL, since a JSON text has none. -/
theorem doParseFields_clean (hdump : ∀ j, 0 ∉ json.dump j) {messageId message reply : Str}
    (h : doParseFields json b messageId message = .ok reply) : 0 ∉ reply := by
  rcases doParseFields_cases h with rfl | ⟨text, rfl, -⟩
  · exact List.not_mem_nil
  · exact hdump _

/-! ## One task -/

/-- Each entry of the LRU caches is of one kind, and each entry of Redis of another. -/
structure ServerState.Holds (P Q : Str × Str → Prop) (s : ServerState m) : Prop where
  caches : s.manager.caches.Filled P
  redis : ∀ key val, s.redis key = some val → Q (key, val)

/-- What Redis returns is nothing, or an entry. -/
theorem ServerState.Holds.redisGet {P Q : Str × Str → Prop} {s : ServerState m} (h : s.Holds P Q)
    (hclean : ∀ e, Q e → 0 ∉ e.2) (key : Str) :
    redisGet s.redis key = [] ∨ Q (key, redisGet s.redis key) := by
  unfold LightSearch.redisGet
  cases hval : s.redis key with
  | none => exact .inl rfl
  | some val =>
    have hentry := h.redis key val hval
    dsimp only
    rw [cstr_of_not_mem (hclean _ hentry)]
    exact .inr hentry

/-- What a task does for a message: it fails as `doParse` does, or it replies with what `doParse`
returns, where an empty text is packed, or with an entry of a store. The stores still hold entries of
their kinds. -/
def Outcome (json : Json.Text) (b : Backend) (P Q : Str × Str → Prop) (messageId message : Str)
    (task : Except Fault (ServerState m × Str)) : Prop :=
  (∃ fault, task = .error fault ∧ doParseFields json b messageId message = .error fault) ∨
    ∃ s' reply, task = .ok (s', reply) ∧ s'.Holds P Q ∧
      ((∃ parsed, doParseFields json b messageId message = .ok parsed ∧
          reply = if parsed = [] then packMsgToJson json (replyId messageId) [] else parsed) ∨
        reply ≠ [] ∧ (messageId = lit "1" ∧ P (message, reply) ∨
          messageId ≠ lit "1" ∧ Q (message, reply)))

section Task

variable {P Q : Str × Str → Prop} {s : ServerState m} {msg messageId message : Str}

/-- A keyword request. -/
theorem keyword_outcome (h : s.Holds P Q) (threadID : Fin (m + 1))
    (hfields : readFields json msg = .ok (lit "1", message))
    (hP : ∀ reply, doParseFields json b (lit "1") message = .ok reply → reply ≠ [] →
      P (message, reply)) :
    Outcome json b P Q (lit "1") message (threadTask json b s threadID msg) := by
  obtain ⟨c', val, added, hget, hc', -, hval, -⟩ :=
    LRUCache.get_filled (h.caches threadID) message
  have hcaches := h.caches.set threadID hc'
  simp only [threadTask, hfields, Except.ok_bind, ↓reduceIte, Caches.get, hget,
    doParse_of_fields hfields]
  by_cases hmiss : val = []
  · -- a miss: the reply of `doParse`, if there is one, goes into the cache
    subst hmiss
    simp only [List.length_nil, ↓reduceIte]
    cases hparse : doParseFields json b (lit "1") message with
    | error fault => exact .inl ⟨fault, rfl, hparse⟩
    | ok reply =>
      simp only [Except.ok_bind]
      by_cases hempty : reply = []
      · subst hempty
        simp only [↓reduceIte]
        exact .inr ⟨_, _, rfl, ⟨hcaches, h.redis⟩, .inl ⟨[], hparse, (if_pos rfl).symm⟩⟩
      · obtain ⟨c'', hput, hc'', -⟩ := LRUCache.put_filled hc' (hP reply hparse hempty) false
        simp only [if_neg hempty, Caches.put, Function.update_self, hput, Except.ok_bind,
          Function.update_idem]
        exact .inr ⟨_, _, rfl, ⟨h.caches.set threadID hc'', h.redis⟩,
          .inl ⟨reply, hparse, (if_neg hempty).symm⟩⟩
  · -- a hit
    have hlen : ¬ val.length = 0 := fun hlen => hmiss (List.length_eq_zero_iff.mp hlen)
    simp only [if_neg hlen]
    exact .inr ⟨_, _, rfl, ⟨hcaches, h.redis⟩, .inr ⟨hmiss, .inl ⟨rfl, hval.resolve_left hmiss⟩⟩⟩

/-- A web request. -/
theorem web_outcome (hclean : ∀ e, Q e → 0 ∉ e.2) (h : s.Holds P Q) (threadID : Fin (m + 1))
    (hid : messageId ≠ lit "1") (hfields : readFields json msg = .ok (messageId, message))
    (hQ : ∀ reply, doParseFields json b messageId message = .ok reply → reply ≠ [] →
      Q (message, reply)) :
    Outcome json b P Q messageId message (threadTask json b s threadID msg) := by
  have hredis := h.redisGet hclean message
  simp only [threadTask, hfields, Except.ok_bind, if_neg hid, doParse_of_fields hfields]
  by_cases hmiss : redisGet s.redis message = []
  · simp only [hmiss, List.length_nil, ↓reduceIte]
    cases hparse : doParseFields json b messageId message with
    | error fault => exact .inl ⟨fault, rfl, hparse⟩
    | ok reply =>
      simp only [Except.ok_bind]
      by_cases hempty : reply = []
      · subst hempty
        simp only [ne_eq, not_true_eq_false, ↓reduceIte]
        refine .inr ⟨_, _, rfl, h, .inl ⟨[], hparse, ?_⟩⟩
        rw [if_pos rfl, replyId, if_neg hid]
      · simp only [ne_eq, hempty, not_false_eq_true, ↓reduceIte]
        refine .inr ⟨_, _, rfl, ⟨h.caches, fun key val hval => ?_⟩,
          .inl ⟨reply, hparse, (if_neg hempty).symm⟩⟩
        -- the new entry is one for its key, and the others were there
        change Function.update s.redis message (some reply) key = some val at hval
        rw [Function.update_apply] at hval
        split at hval
        · next hkey =>
          obtain rfl := Option.some.inj hval
          exact hkey ▸ hQ reply hparse hempty
        · exact h.redis key val hval
  · have hlen : ¬ (redisGet s.redis message).length = 0 := fun hlen =>
      hmiss (List.length_eq_zero_iff.mp hlen)
    simp only [if_neg hlen]
    exact .inr ⟨_, _, rfl, h, .inr ⟨hmiss, .inr ⟨hid, hredis.resolve_left hmiss⟩⟩⟩

/-- **What a task does**, when the stores hold entries of kinds that the replies of `doParse` are of. -/
theorem task_outcome (hclean : ∀ e, Q e → 0 ∉ e.2) (h : s.Holds P Q) (threadID : Fin (m + 1))
    (hfields : readFields json msg = .ok (messageId, message))
    (hP : ∀ reply, doParseFields json b (lit "1") message = .ok reply → reply ≠ [] →
      P (message, reply))
    (hQ : ∀ id, id ≠ lit "1" → ∀ reply, doParseFields json b id message = .ok reply → reply ≠ [] →
      Q (message, reply)) :
    Outcome json b P Q messageId message (threadTask json b s threadID msg) := by
  by_cases hid : messageId = lit "1"
  · subst hid
    exact keyword_outcome h threadID hfields hP
  · exact web_outcome hclean h threadID hid hfields (hQ messageId hid)

end Task

/-- The outcome of a task agrees with the server without caches: the same fault, or the same reply and
caches that still have only replies of `doParse`. -/
def Agrees (json : Json.Text) (b : Backend) (task : Except Fault (ServerState m × Str))
    (direct : Except Fault Str) : Prop :=
  (∃ fault, task = .error fault ∧ direct = .error fault) ∨
    ∃ s' reply, task = .ok (s', reply) ∧ direct = .ok reply ∧ Transparent json b s'

/-- **One task replies as the server without caches does**, and keeps the caches transparent. -/
theorem agrees_task (hdump : ∀ j, 0 ∉ json.dump j) {s : ServerState m} (h : Transparent json b s)
    (threadID : Fin (m + 1)) (msg : Str) :
    Agrees json b (threadTask json b s threadID msg) (directTask json b msg) := by
  cases hfields : readFields json msg with
  | error fault =>
    refine .inl ⟨fault, ?_, ?_⟩
    · simp only [threadTask, hfields, Except.error_bind]
    · simp only [directTask, hfields, Except.error_bind]
  | ok fields =>
    obtain ⟨messageId, message⟩ := fields
    -- an entry of Redis is the page reply for its key
    let Q : Str × Str → Prop := fun e =>
      ∃ id, id ≠ lit "1" ∧ doParseFields json b id e.1 = .ok e.2
    have hclean : ∀ e, Q e → 0 ∉ e.2 := fun e ⟨_, _, hreply⟩ => doParseFields_clean hdump hreply
    have houtcome := task_outcome (Q := Q) hclean ⟨h.caches, h.redis⟩ threadID hfields
      (fun reply hparse hne => ⟨hparse, hne⟩) (fun id hid reply hparse _ => ⟨id, hid, hparse⟩)
    rcases houtcome with ⟨fault, htask, hparse⟩ | ⟨s', reply, htask, hs', hreply⟩
    · refine .inl ⟨fault, htask, ?_⟩
      simp only [directTask, hfields, Except.ok_bind, hparse, Except.error_bind]
    · refine .inr ⟨s', reply, htask, ?_, hs'.caches, hs'.redis⟩
      rcases hreply with ⟨parsed, hparse, rfl⟩ | ⟨hne, hentry⟩
      · simp only [directTask, hfields, Except.ok_bind, hparse, replyId]
      · -- a hit: the entry is the reply of `doParse`
        have hparse : doParseFields json b messageId message = .ok reply := by
          rcases hentry with ⟨rfl, hparse, -⟩ | ⟨hid, id, hother, hparse⟩
          · exact hparse
          · rw [doParseFields_web hid hother]
            exact hparse
        simp only [directTask, hfields, Except.ok_bind, hparse, if_neg hne]

/-! ## Runs -/

/-- The run of the server from some replies already sent. -/
theorem serve_run (hdump : ∀ j, 0 ∉ json.dump j) {s : ServerState m} (h : Transparent json b s)
    (sent : List Str) (events : List (Event m)) :
    (∃ fault, Run.run (serve json b) (s, sent) events = .error fault ∧
      directReplies json b events = .error fault) ∨
    ∃ s' replies, Run.run (serve json b) (s, sent) events = .ok (s', sent ++ replies) ∧
      directReplies json b events = .ok replies ∧ Transparent json b s' := by
  induction events generalizing s sent with
  | nil => exact .inr ⟨s, [], by rw [List.append_nil]; rfl, rfl, h⟩
  | cons event events ih =>
    cases event with
    | updateCache =>
      obtain ⟨manager, hupdate, hmanager⟩ := updateCache_filled h.caches
      have h' : Transparent json b { s with manager := manager } := ⟨hmanager, h.redis⟩
      simp only [Run.run_cons, serve, hupdate, Except.ok_bind, directReplies]
      exact ih h' sent
    | request threadID msg =>
      rcases agrees_task hdump h threadID msg with ⟨fault, htask, hdirect⟩ |
        ⟨s₁, reply, htask, hdirect, h₁⟩
      · refine .inl ⟨fault, ?_, ?_⟩
        · simp only [Run.run_cons, serve, htask, Except.error_bind]
        · simp only [directReplies, hdirect, Except.error_bind]
      · simp only [Run.run_cons, serve, htask, Except.ok_bind, directReplies, hdirect]
        rcases ih h₁ (sent ++ [reply]) with ⟨fault, hrun, hrest⟩ | ⟨s₂, replies, hrun, hrest, h₂⟩
        · exact .inl ⟨fault, hrun, by rw [hrest, Except.error_bind]⟩
        · refine .inr ⟨s₂, reply :: replies, ?_, by rw [hrest, Except.ok_bind], h₂⟩
          rw [hrun, List.append_assoc, List.singleton_append]

/-- **Cache transparency.** From caches that have only replies of `doParse`, a server replies to any
requests on any threads, with updates of the caches in between, exactly as the server without caches
does. It faults exactly when that one does. -/
theorem replies_direct (hdump : ∀ j, 0 ∉ json.dump j) {s : ServerState m}
    (h : Transparent json b s) (events : List (Event m)) :
    (Run.run (serve json b) (s, []) events).map Prod.snd = directReplies json b events := by
  rcases serve_run hdump h [] events with ⟨fault, hrun, hdirect⟩ | ⟨s', replies, hrun, hdirect, -⟩
  · rw [hrun, hdirect]
    rfl
  · rw [hrun, hdirect]
    rfl

/-- New caches and an empty Redis are transparent. -/
theorem transparent_new (file : Str) :
    Transparent (m := m) json b
      { manager := { caches := fun _ => LRUCache.new (m + 1), file := file }, redis := fun _ => none }
    where
  caches := fun _ => LRUCache.filled_new (Nat.succ_pos m)
  redis := fun _ _ hval => nomatch hval

/-- Two workers. The second request is a hit in the cache of worker 0, the third finds nothing, the
fourth is a hit in the cache of worker 1 after an update. -/
theorem replies_direct_two :
    let b : Backend :=
      { mixed := fun _ => .ok [], english := fun s => .ok (if s = lit "hello" then s else []),
        chinese := fun _ => .ok [], webPage := fun _ => .ok [] }
    let s : ServerState 1 :=
      { manager := { caches := fun _ => LRUCache.new 2, file := [] }, redis := fun _ => none }
    let request := Json.flat.dump (packJson (lit "1") (lit "Hello"))
    let events : List (Event 1) :=
      [.request 0 request, .request 0 request,
        .request 1 (Json.flat.dump (packJson (lit "1") (lit "word"))), .updateCache,
        .request 1 request, .request 0 (Json.flat.dump (packJson (lit "2") (lit "Hello")))]
    ((∀ j, 0 ∉ Json.flat.dump j) ∧ Transparent Json.flat b s) ∧
    (Run.run (serve Json.flat b) (s, []) events).map Prod.snd = directReplies Json.flat b events := by
  intro b s request events
  have hnew : Transparent Json.flat b s := transparent_new []
  exact ⟨⟨Json.flat_clean, hnew⟩, replies_direct Json.flat_clean hnew events⟩

end LightSearch
