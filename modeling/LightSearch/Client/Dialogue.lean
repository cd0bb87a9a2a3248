import LightSearch.Client.ProtocolParser
import LightSearch.Client.SocketIO
import LightSearch.Client.TcpClient

/-!
# Clients and server

Any number of clients on connections of their own, and the server with its caches. A client packs a
request, sends it in a frame and waits for the reply; the server reads the frame, works the request out on
one of its threads, and sends the reply in a frame; the client shows it.

What is in flight on a connection is kept from one exchange to the next. But every exchange leaves its
connection empty (`exchange_answer`), so the replies do not get out of step, and what the clients show is
what they would show if each of them called `doParse` itself (`dialogue_direct`): it depends on neither
the caches, the threads, the other clients nor the way the sockets cut the frames. Two transfers of the
client are excepted, since the client neither looks at what they return nor repeats them: the `write` of
the length and the `recv` of the length, which have to transfer all four bytes (`Exchange.Sound`).
-/

set_option autoImplicit false

namespace LightSearch

open Cxx Posix

namespace Dialogue

/-! ## The system -/

/-- What is in flight on a connection, to the server and to the client. -/
structure Connection where
  up : Str
  down : Str

/-- A request of a client: what it asks, which thread of the server works on it, and what happens on the
sockets: in the calls of `write` and `readN` at both ends, and in the `recv` of the length of the reply. -/
structure Exchange (m : Nat) where
  mode : Mode
  message : Str
  threadID : Fin (m + 1)
  clientWrites : List Posix.Outcome
  serverReads : List Posix.Outcome
  serverWrites : List Posix.Outcome
  clientReads : List Posix.Outcome
  len₀ : Int
  lengthRead : Posix.Outcome

variable {m : Nat} {κ : Type} [DecidableEq κ]

/-- The text of a request. -/
def Exchange.request (json : Json.Text) (e : Exchange m) : Str := packMsgToJson json e.mode.id e.message

/-- A request and its reply, on one connection. -/
def exchange (json : Json.Text) (b : Backend) (s : ServerState m) (c : Connection) (e : Exchange m) :
    Except Fault (ServerState m × Connection × Shown) := do
  let (_, up) := Client.send (e.request json) ⟨c.up, e.clientWrites⟩
  let (msg, up) := receive e.len₀ ⟨up.sent, e.serverReads⟩
  let (s, reply) ← threadTask json b s e.threadID msg
  let down := send reply ⟨c.down, e.serverWrites⟩
  let (text, down) ← Client.receive e.lengthRead ⟨down.sent, e.clientReads⟩
  let shown ← handleMessage json text
  .ok (s, ⟨up.incoming, down.incoming⟩, shown)

/-- A client asks, or the timer of the server updates the caches. -/
inductive Event (m : Nat) (κ : Type) where
  | ask (client : κ) (e : Exchange m)
  | updateCache

/-- The server, the connections, and what was shown to whom. -/
structure State (m : Nat) (κ : Type) where
  server : ServerState m
  connections : κ → Connection
  shown : List (κ × Shown)

def step (json : Json.Text) (b : Backend) (s : State m κ) : Event m κ → Except Fault (State m κ)
  | .ask client e => do
    let (server, c, shown) ← exchange json b s.server (s.connections client) e
    .ok ⟨server, Function.update s.connections client c, s.shown ++ [(client, shown)]⟩
  | .updateCache => do
    let manager ← updateCache s.server.manager
    .ok { s with server := { s.server with manager := manager } }

/-- The clients have just connected. -/
def start (server : ServerState m) : State m κ := ⟨server, fun _ => ⟨[], []⟩, []⟩

/-! ## Without sockets and caches -/

/-- What a client would show if it called `doParse` itself, and said that there is nothing where that
returns nothing. The bytes of a message that are not UTF-8 are left out. -/
def answer (json : Json.Text) (b : Backend) (mode : Mode) (message : Str) : Except Fault Shown := do
  let reply ← doParseFields json b mode.id (Utf8.ignore message)
  if reply = [] then
    .ok (match mode with
      | .keyword => .noKeywords
      | .web => .noWebpages)
  else handleMessage json reply

/-- What is shown to the clients then. -/
def answers (json : Json.Text) (b : Backend) : List (Event m κ) → Except Fault (List (κ × Shown))
  | [] => .ok []
  | .ask client e :: events => do
    let shown ← answer json b e.mode e.message
    let rest ← answers json b events
    .ok ((client, shown) :: rest)
  | .updateCache :: events => answers json b events

/-- The calls on the sockets may be cut and interrupted, but do not fail. The client's `write` of the
length is neither cut nor interrupted, and its `recv` with `MSG_WAITALL` is not interrupted. The request
fits the array of the server, and the length of a reply is an `int`. -/
structure Exchange.Sound (json : Json.Text) (b : Backend) (e : Exchange m) : Prop where
  clientWrites : Healthy e.clientWrites
  serverReads : Healthy e.serverReads
  serverWrites : Healthy e.serverWrites
  clientReads : Healthy e.clientReads
  lengthWrite : ∀ sent bytes, (Sink.write ⟨sent, e.clientWrites⟩ bytes 4).1 = .done 4
  lengthRead : ∃ k, e.lengthRead = .upTo k
  request_fits : (e.request json).length < buffSize
  reply_fits : ∀ reply, directTask json b (e.request json) = .ok reply → reply.length < 2 ^ 31 - 1

/-! ## One exchange -/

variable {json : Json.Text} {b : Backend}

theorem valid_id (mode : Mode) : Utf8.Valid mode.id := by
  cases mode with
  | keyword => exact Utf8.valid_lit "1"
  | web => exact Utf8.valid_lit "2"

/-- The server reads a request as it was packed, without the bytes that are not UTF-8. -/
theorem readFields_request (hjson : json.Laws) (e : Exchange m) :
    readFields json (e.request json) = .ok (e.mode.id, Utf8.ignore e.message) := by
  have hkeyed : Json.Keyed [(lit "message", .text e.message), (lit "messageId", .text e.mode.id)] := by
    have hlt : lit "message" < lit "messageId" := by decide
    refine ⟨List.pairwise_pair.mpr hlt, fun f hf => ?_⟩
    rcases List.mem_pair.mp hf with rfl | rfl
    · exact Utf8.valid_lit _
    · exact Utf8.valid_lit _
  have hparse := hjson.parse_dump _ hkeyed
  simp only [List.map_cons, List.map_nil, Json.Value.ignore, (valid_id e.mode).ignore] at hparse
  exact readFields_pack hparse

/-- What the client shows for the reply of a server without caches. -/
theorem directTask_shown (hjson : json.Laws) (e : Exchange m) :
    (directTask json b (e.request json) >>= handleMessage json) = answer json b e.mode e.message := by
  unfold directTask answer
  rw [readFields_request hjson e, Except.ok_bind]
  dsimp only
  cases doParseFields json b e.mode.id (Utf8.ignore e.message) with
  | error fault => rfl
  | ok reply =>
    rw [Except.ok_bind, Except.ok_bind, Except.ok_bind]
    split
    · -- nothing: the server packs an empty message with the id for the mode
      unfold handleMessage
      cases e.mode with
      | keyword =>
        have hkeyword : Mode.keyword.id = lit "1" := rfl
        rw [if_pos hkeyword, readFields_pack (parse_packMsgToJson hjson (Utf8.valid_lit _) Utf8.valid_nil)]
        rfl
      | web =>
        have hweb : Mode.web.id ≠ lit "1" := by decide
        rw [if_neg hweb,
          readFields_pack (parse_packMsgToJson hjson (Utf8.valid_lit _) Utf8.valid_nil)]
        rfl
    · rfl

/-- The replies of the server without caches have no NUL. -/
theorem directTask_clean (hjson : json.Laws) {msg reply : Str} (h : directTask json b msg = .ok reply) :
    0 ∉ reply := by
  obtain ⟨fields, -, h⟩ := Except.bind_eq_ok.mp h
  obtain ⟨parsed, hparse, h⟩ := Except.bind_eq_ok.mp h
  obtain rfl := Except.ok.inj h
  split
  · exact hjson.dump_clean _
  · exact doParseFields_clean hjson.dump_clean hparse

/-- **One exchange** on an empty connection: it fails as the answer does, or the client shows the answer,
and the connection is empty again. -/
theorem exchange_answer (hjson : json.Laws) (hline : ∀ j, newline ∉ json.dump j) {s : ServerState m}
    (hs : Transparent json b s) {e : Exchange m} (he : e.Sound json b) :
    (∃ fault, exchange json b s ⟨[], []⟩ e = .error fault ∧
      answer json b e.mode e.message = .error fault) ∨
    ∃ s' shown, exchange json b s ⟨[], []⟩ e = .ok (s', ⟨[], []⟩, shown) ∧
      answer json b e.mode e.message = .ok shown ∧ Transparent json b s' := by
  have hbuff : buffSize < 2 ^ 31 := by decide
  have hup := Client.send_frame (he.request_fits.trans hbuff) he.clientWrites (he.lengthWrite _ _)
    (s := ⟨[], e.clientWrites⟩)
  obtain ⟨calls, -, hreceive⟩ := receive_payload e.len₀ he.request_fits (hline _) (hjson.dump_clean _) []
    he.serverReads
  rw [List.append_nil] at hreceive
  rw [List.nil_append] at hup
  have hshown := directTask_shown (b := b) hjson e
  obtain ⟨k, hlengthRead⟩ := he.lengthRead
  unfold exchange
  dsimp only
  rw [hup, hreceive, hlengthRead]
  dsimp only
  rcases agrees_task hjson.dump_clean hs e.threadID (e.request json) with
    ⟨fault, htask, hdirect⟩ | ⟨s', reply, htask, hdirect, hs'⟩
  · rw [hdirect, Except.error_bind] at hshown
    exact .inl ⟨fault, by rw [htask, Except.error_bind], hshown.symm⟩
  · have hfits := he.reply_fits reply hdirect
    obtain ⟨hdown, -⟩ := send_frame (hfits.trans (by decide)) he.serverWrites
      (s := ⟨[], e.serverWrites⟩)
    rw [List.nil_append] at hdown
    obtain ⟨calls', -, hback⟩ := Client.receive_payload k hfits (directTask_clean hjson hdirect) []
      he.clientReads
    rw [List.append_nil] at hback
    rw [hdirect, Except.ok_bind] at hshown
    rw [htask, Except.ok_bind]
    dsimp only
    rw [hdown, hback, Except.ok_bind]
    dsimp only
    rw [hshown]
    cases hanswer : answer json b e.mode e.message with
    | error fault => exact .inl ⟨fault, rfl, rfl⟩
    | ok shown => exact .inr ⟨s', shown, rfl, rfl, hs'⟩

/-! ## Dialogues -/

/-- **What is shown to the clients.** From caches that have only replies of `doParse`, any clients that ask
in any order, on any threads and with updates of the caches in between, are shown what each of them would
be shown without sockets and caches, when their exchanges are sound. The system faults exactly when
`doParse` or the client would. -/
theorem dialogue_direct (hjson : json.Laws) (hline : ∀ j, newline ∉ json.dump j) {server : ServerState m}
    (hserver : Transparent json b server) {events : List (Event m κ)}
    (hsound : ∀ client e, Event.ask client e ∈ events → e.Sound json b) :
    (Run.run (step json b) (start server) events).map State.shown = answers json b events := by
  have hrun : ∀ (events : List (Event m κ)), (∀ client e, Event.ask client e ∈ events → e.Sound json b) →
      ∀ s : State m κ, Transparent json b s.server → (∀ client, s.connections client = ⟨[], []⟩) →
        (Run.run (step json b) s events).map State.shown =
          (answers json b events).map (s.shown ++ ·) := by
    intro events
    induction events with
    | nil => exact fun _ s _ _ => congrArg Except.ok (List.append_nil _).symm
    | cons event events ih =>
      intro hsound s hs hempty
      have hrest := ih fun client e he => hsound client e (List.mem_cons_of_mem _ he)
      cases event with
      | updateCache =>
        obtain ⟨manager, hupdate, hmanager⟩ := updateCache_filled hs.caches
        have hs' : Transparent json b { s.server with manager := manager } := ⟨hmanager, hs.redis⟩
        simp only [Run.run_cons, step, hupdate, Except.ok_bind, answers]
        exact hrest _ hs' hempty
      | ask client e =>
        have he := hsound client e List.mem_cons_self
        rcases exchange_answer hjson hline hs he with
          ⟨fault, hfault, hanswer⟩ | ⟨s', shown, hok, hanswer, hs'⟩
        · simp only [Run.run_cons, step, hempty, hfault, Except.error_bind, answers, hanswer]
          rfl
        · have hupdate : Function.update s.connections client ⟨[], []⟩ = s.connections := by
            rw [← hempty client, Function.update_eq_self]
          simp only [Run.run_cons, step, hempty, hok, Except.ok_bind, answers, hanswer, hupdate]
          have hlater := hrest ⟨s', s.connections, s.shown ++ [(client, shown)]⟩ hs' hempty
          rw [hlater]
          cases answers json b events with
          | error fault => rfl
          | ok rest => exact congrArg Except.ok (List.append_assoc _ _ _)
  have h := hrun events hsound (start server) hserver fun _ => rfl
  rw [h]
  cases answers json b events with
  | error fault => rfl
  | ok rest => rfl

/-! ### Two clients -/

/-- A backend with one keyword. -/
def smallBackend : Backend where
  mixed _ := .ok []
  english word :=
    .ok (if word = lit "hello" then Json.compact.dump (listJson (lit "Keywords") [word]) else [])
  chinese _ := .ok []
  webPage _ := .ok []

/-- The second request is worked out by another thread after an update, and sent a byte at a time. -/
def smallEvents : List (Event 1 (Fin 2)) :=
  [.ask 0 ⟨.keyword, lit "Hello", 0, [], [.interrupted, .upTo 0], [], [], 0, .upTo 0⟩,
    .updateCache,
    .ask 1 ⟨.keyword, lit "Hello", 1, [], [], [.interrupted, .upTo 2], [.upTo 0, .upTo 0], 0, .upTo 4⟩,
    .ask 0 ⟨.web, lit "Hello", 1, [.upTo 6, .interrupted], [], [], [], 0, .upTo 0⟩]

deriving instance DecidableEq for Shown

theorem dialogue_direct_two :
    (Run.run (step Json.compact smallBackend) (start newServer) smallEvents).map State.shown =
      .ok [(0, .keywords [lit "hello"]), (1, .keywords [lit "hello"]), (0, .noWebpages)] := by
  have hkeyword : directTask Json.compact smallBackend
      (packMsgToJson Json.compact Mode.keyword.id (lit "Hello")) = .ok (packMsgToJson Json.compact
        (lit "100") (Json.compact.dump (listJson (lit "Keywords") [lit "hello"]))) := by
    decide +kernel
  have hweb : directTask Json.compact smallBackend
      (packMsgToJson Json.compact Mode.web.id (lit "Hello")) =
        .ok (packMsgToJson Json.compact (lit "200") []) := by
    decide +kernel
  have hsound : ∀ client e, Event.ask client e ∈ smallEvents →
      e.Sound Json.compact smallBackend := by
    intro client e he
    simp only [smallEvents, List.mem_cons, List.not_mem_nil, or_false, reduceCtorEq, false_or,
      Event.ask.injEq] at he
    rcases he with ⟨-, rfl⟩ | ⟨-, rfl⟩ | ⟨-, rfl⟩
    · refine ⟨by decide, by decide, by decide, by decide, fun _ _ => rfl, ⟨_, rfl⟩, by decide +kernel, ?_⟩
      intro reply hreply
      obtain rfl := Except.ok.inj (hkeyword.symm.trans hreply)
      decide +kernel
    · refine ⟨by decide, by decide, by decide, by decide, fun _ _ => rfl, ⟨_, rfl⟩, by decide +kernel, ?_⟩
      intro reply hreply
      obtain rfl := Except.ok.inj (hkeyword.symm.trans hreply)
      decide +kernel
    · refine ⟨by decide, by decide, by decide, by decide, fun _ _ => rfl, ⟨_, rfl⟩, by decide +kernel, ?_⟩
      intro reply hreply
      obtain rfl := Except.ok.inj (hweb.symm.trans hreply)
      decide +kernel
  have hserver : Transparent Json.compact smallBackend newServer := transparent_new []
  rw [dialogue_direct Json.compact_laws Json.compact_line hserver hsound]
  decide +kernel

end Dialogue

end LightSearch
