import LightSearch.Server.EventLoop
import LightSearch.Server.SearchServer

/-!
# The whole server

The event loop, the workers with their caches, and Redis together. A worker goes through `threadTask` in
steps of its own: it looks into the store for the request, calls `doParse` when there is nothing, and puts
what that returns into the store. The timer runs `updateCache` on the thread of the event loop, one call
after the other. Between any two of these steps all others can take theirs. `doParse` is one step, over
tables that do not change: the one MYSQL handle that the workers share without a lock is not modelled.

What is kept is that the stores have only replies of `doParse`, wherever the workers and an update are
(`Steady`). So every reply that is sent is the reply of `doParse` for its request, on the connection that
the request came from, and only a request on which `doParse` fails ends the server (`replies_steady`).

And every reply is sent. Each step between the arrival of a request and its reply lowers a measure, and as
long as a request is not answered, there is such a step: no order of steps can keep a reply back for ever
(`requests_answered`).
-/

set_option autoImplicit false

namespace LightSearch

open Cxx Threads

/-! ## The way of a request goes on -/

namespace EventLoop

variable {W : Type} [DecidableEq W] [Fintype W]

/-- What a step does to the requests, the functors and the tasks in hand. -/
theorem account_step {s s' : EventLoop W} {a : Action W}
    (hstep : s.step a = .ok s') :
    (∃ more, s'.received = s.received ++ more) ∧
      (∀ f ∈ s'.appended, f ∈ s.appended ∨ ∃ w t reply, a = .append w reply ∧
        s.workers w = .working t ∧ f = ⟨t.number, t.con, reply⟩) ∧
      ∀ w t, s'.workers w = .working t → a = .pop w ∨ s.workers w = .working t := by
  have hsame : ∀ {f : W → Worker} {w v : W} {t : Task} {worker : Worker},
      (∀ u, worker ≠ .working u) → Function.update f w worker v = .working t → f v = .working t := by
    intro f w v t worker hworker hv
    by_cases hvw : v = w
    · subst hvw
      rw [Function.update_self] at hv
      exact absurd hv (hworker t)
    · rwa [Function.update_of_ne hvw] at hv
  cases a with
  | accept fd =>
    obtain ⟨-, rfl⟩ := accept_inv hstep
    exact ⟨⟨[], (List.append_nil _).symm⟩, fun _ hf => .inl hf, fun _ _ hw => .inr hw⟩
  | message fd msg =>
    obtain ⟨-, ⟨-, rfl⟩ | ⟨con, -, -, rfl⟩⟩ := message_inv hstep
    · exact ⟨⟨[], (List.append_nil _).symm⟩, fun _ hf => .inl hf, fun _ _ hw => .inr hw⟩
    · exact ⟨⟨_, rfl⟩, fun _ hf => .inl hf, fun _ _ hw => .inr hw⟩
  | close fd =>
    obtain ⟨-, rfl⟩ := close_inv hstep
    exact ⟨⟨[], (List.append_nil _).symm⟩, fun _ hf => .inl hf, fun _ _ hw => .inr hw⟩
  | handleRead =>
    obtain ⟨-, -, rfl⟩ := handleRead_inv hstep
    exact ⟨⟨[], (List.append_nil _).symm⟩, fun _ hf => .inl hf, fun _ _ hw => .inr hw⟩
  | swap =>
    obtain ⟨-, rfl⟩ := swap_inv hstep
    exact ⟨⟨[], (List.append_nil _).symm⟩, fun _ hf => .inl hf, fun _ _ hw => .inr hw⟩
  | run =>
    obtain ⟨f, tmp, -, -, -, rfl⟩ := run_inv hstep
    exact ⟨⟨[], (List.append_nil _).symm⟩, fun _ hf => .inl hf, fun _ _ hw => .inr hw⟩
  | leave =>
    obtain ⟨-, -, rfl⟩ := leave_inv hstep
    exact ⟨⟨[], (List.append_nil _).symm⟩, fun _ hf => .inl hf, fun _ _ hw => .inr hw⟩
  | pop w =>
    obtain ⟨t, tasks, -, -, rfl⟩ := pop_inv hstep
    refine ⟨⟨[], (List.append_nil _).symm⟩, fun _ hf => .inl hf, fun v u hv => ?_⟩
    by_cases hvw : v = w
    · exact .inl (hvw ▸ rfl)
    · exact .inr ((Function.update_of_ne hvw _ s.workers).symm.trans hv)
  | append w reply =>
    obtain ⟨t, hw, rfl⟩ := append_inv hstep
    refine ⟨⟨[], (List.append_nil _).symm⟩, fun f hf => ?_, fun _ _ hv => .inr (hsame (by simp) hv)⟩
    rcases List.mem_append.mp hf with hbefore | hnew
    · exact .inl hbefore
    · exact .inr ⟨w, t, reply, rfl, hw, List.mem_singleton.mp hnew⟩
  | wakeup w =>
    obtain ⟨t, -, -, rfl⟩ := wakeup_inv hstep
    exact ⟨⟨[], (List.append_nil _).symm⟩, fun _ hf => .inl hf, fun _ _ hv => .inr (hsame (by simp) hv)⟩
  | release w =>
    obtain ⟨t, -, rfl⟩ := release_inv hstep
    exact ⟨⟨[], (List.append_nil _).symm⟩, fun _ hf => .inl hf, fun _ _ hv => .inr (hsame (by simp) hv)⟩

/-- How many steps a worker has before it, with those of the event loop that its wakeup can cause. -/
def workOf : Worker → Nat
  | .idle => 0
  | .working _ => 7
  | .writing _ => 5
  | .finished _ => 1

/-- The steps that lead the event loop back to `epoll_wait`. -/
def back : Loop → Nat
  | .waiting => 0
  | .woken => 2
  | .running => 1

/-- A bound on the steps until all requests are answered. -/
def work (s : EventLoop W) : Nat :=
  8 * s.tasks.length + total workOf s.workers + s.pengdings.length + s.tmp.length +
    (if 0 < s.eventfd then 3 else 0) + back s.loop

/-- The action is a worker's reply. -/
def Action.Replies : Action W → Prop
  | .append .. => True
  | _ => False

/-- Nothing is under way. -/
structure Quiet (s : EventLoop W) : Prop where
  tasks : s.tasks = []
  workers : ∀ w, s.workers w = .idle
  pengdings : s.pengdings = []
  tmp : s.tmp = []

theorem total_workOf {s : EventLoop W} {w : W} {worker : Worker} (hw : s.workers w = worker)
    (worker' : Worker) :
    total workOf (Function.update s.workers w worker') + workOf worker =
      total workOf s.workers + workOf worker' := by
  rw [← hw]
  exact total_update workOf s.workers w worker'

/-- **A step that is not one for a connection lowers the measure.** -/
theorem work_step {s s' : EventLoop W} {a : Action W} (ha : ¬ a.OnConnection)
    (hstep : s.step a = .ok s') : s'.work < s.work := by
  cases a with
  | accept fd => exact absurd trivial ha
  | message fd msg => exact absurd trivial ha
  | close fd => exact absurd trivial ha
  | handleRead =>
    obtain ⟨hloop, hready, rfl⟩ := handleRead_inv hstep
    simp only [work, hloop, back, if_pos hready, Nat.lt_irrefl, if_false]
    omega
  | swap =>
    obtain ⟨hloop, rfl⟩ := swap_inv hstep
    simp only [work, hloop, back, List.length_nil]
    omega
  | run =>
    obtain ⟨f, tmp, -, htmp, -, rfl⟩ := run_inv hstep
    simp only [work, htmp, List.length_cons]
    omega
  | leave =>
    obtain ⟨hloop, -, rfl⟩ := leave_inv hstep
    simp only [work, hloop, back]
    omega
  | pop w =>
    obtain ⟨t, tasks, hidle, htasks, rfl⟩ := pop_inv hstep
    have htotal := total_workOf hidle (.working t)
    simp only [work, htasks, List.length_cons, workOf] at htotal ⊢
    omega
  | append w reply =>
    obtain ⟨t, hw, rfl⟩ := append_inv hstep
    have htotal := total_workOf hw (.writing t)
    simp only [work, List.length_append, List.length_singleton, workOf] at htotal ⊢
    omega
  | wakeup w =>
    obtain ⟨t, hw, -, rfl⟩ := wakeup_inv hstep
    have htotal := total_workOf hw (.finished t)
    simp only [work, Nat.succ_pos, if_true, workOf] at htotal ⊢
    split <;> omega
  | release w =>
    obtain ⟨t, hw, rfl⟩ := release_inv hstep
    have htotal := total_workOf hw .idle
    simp only [work, workOf] at htotal ⊢
    omega

/-- The event loop goes on outside of `epoll_wait`, and in it when the eventfd can be read. -/
theorem loop_goes_on {s : EventLoop W} (hs : s.Conserved) (hopen : s.Open)
    (hready : s.loop = .waiting → 0 < s.eventfd) :
    ∃ a s', ¬ a.OnConnection ∧ ¬ a.Replies ∧ s.step a = .ok s' := by
  cases hloop : s.loop with
  | waiting =>
    refine ⟨.handleRead, { s with eventfd := 0, loop := .woken }, id, id, ?_⟩
    simp only [EventLoop.step, hloop, hready hloop, and_self, ↓reduceIte]
  | woken =>
    refine ⟨.swap, { s with tmp := s.pengdings, pengdings := [], loop := .running }, id,
      id, ?_⟩
    simp only [EventLoop.step, hloop, ↓reduceIte]
  | running =>
    cases htmp : s.tmp with
    | nil =>
      refine ⟨.leave, { s with loop := .waiting }, id, id, ?_⟩
      simp only [EventLoop.step, hloop, htmp]
    | cons f tmp =>
      have hf : f ∈ s.tmp ++ s.pengdings :=
        List.mem_append_left _ (htmp ▸ List.mem_cons_self)
      obtain ⟨msg, hreceived⟩ := hs.functorOrigin f (hs.mem_appended hf)
      have halive : s.Alive f.con := .inl (hopen _ (List.mem_of_getElem? hreceived))
      refine ⟨.run, { s with tmp := tmp, sent := s.sent ++ [f] }, id, id, ?_⟩
      simp only [EventLoop.step, hloop, htmp, halive, ↓reduceIte]

/-- **As long as something is under way, something can go on**: a worker has a task to work out, or a step
is possible that needs no reply. -/
theorem goes_on [Nonempty W] {s : EventLoop W} (hs : s.Conserved) (hopen : s.Open) :
    s.Quiet ∨ (∃ w t, s.workers w = .working t) ∨
      ∃ a s', ¬ a.OnConnection ∧ ¬ a.Replies ∧ s.step a = .ok s' := by
  by_cases hready : s.loop = .waiting → 0 < s.eventfd
  · exact .inr (.inr (loop_goes_on hs hopen hready))
  · obtain ⟨hloop, hzero⟩ := Classical.not_imp.mp hready
    have htmp : s.tmp = [] := hs.tmp (by rw [hloop]; exact Loop.noConfusion)
    by_cases hidle : ∀ w, s.workers w = .idle
    · cases htasks : s.tasks with
      | nil =>
        refine .inl ⟨htasks, hidle, by_contra fun hpend => ?_, htmp⟩
        rcases hs.woken (by rw [hloop]; exact Loop.noConfusion) hpend with hpos | ⟨w, t, hw⟩
        · exact hzero hpos
        · cases (hidle w).symm.trans hw
      | cons t tasks =>
        obtain ⟨w⟩ := ‹Nonempty W›
        refine .inr (.inr ⟨.pop w, { s with
          tasks := tasks, workers := Function.update s.workers w (.working t) }, id, id, ?_⟩)
        simp only [EventLoop.step, hidle w, htasks]
    · obtain ⟨w, hw⟩ := not_forall.mp hidle
      cases hworker : s.workers w with
      | idle => exact absurd hworker hw
      | working t => exact .inr (.inl ⟨w, t, hworker⟩)
      | writing t =>
        have hbound : s.eventfd < 2 ^ 64 - 2 := by omega
        refine .inr (.inr ⟨.wakeup w, { s with
          eventfd := s.eventfd + 1, workers := Function.update s.workers w (.finished t) }, id, id, ?_⟩)
        simp only [EventLoop.step, hworker, hbound, ↓reduceIte]
      | finished t =>
        refine .inr (.inr ⟨.release w, { s with
          workers := Function.update s.workers w .idle }, id, id, ?_⟩)
        simp only [EventLoop.step, hworker]

omit [DecidableEq W] in
/-- When nothing is under way, each request has been answered once. -/
theorem Quiet.sent {s : EventLoop W} (h : s.Quiet) (hs : s.Conserved) {number : Nat}
    (hnumber : number < s.received.length) : s.sent.countP (·.number = number) = 1 := by
  have hplaces := hs.onePlace number
  have hnone : count (Worker.Holds number) s.workers = 0 :=
    count_eq_zero _ fun w hw => by rw [h.workers w] at hw; exact hw
  simp only [places, h.tasks, h.pengdings, h.tmp, hnone, List.countP_nil, if_pos hnumber,
    Nat.zero_add] at hplaces
  exact hplaces

end EventLoop

namespace Service

/-! ## The machine -/

/-- Where a worker is in `threadTask`: at its beginning, behind a look into a store that had nothing, in
front of the `put` of what `doParse` returned, or in front of `sendInLoop`. -/
inductive Phase where
  | begun
  | missed (messageId message : Str)
  | parsed (messageId message tocMessage : Str)
  | done (reply : Str)

/-- The server: the event loop and its queues, the stores, where each worker is in `threadTask`, and what
is left of an update, if one is under way. Behind its last call the file is still to be written. -/
structure State (m : Nat) where
  loop : EventLoop (Fin (m + 1))
  stores : ServerState m
  phases : Fin (m + 1) → Phase
  calls : Option (List (Call (m + 1)))

/-- A step of the event loop or of a worker outside of `threadTask`, a step of `threadTask`, the timer, or
a step of `updateCache`. -/
inductive Action (m : Nat) where
  | event (a : EventLoop.Action (Fin (m + 1)))
  | look (w : Fin (m + 1))
  | parse (w : Fin (m + 1))
  | store (w : Fin (m + 1))
  | timer
  | update

/-- Why the server stops: the step is not possible, a functor runs on a connection that is gone, or nobody
catches what a worker throws. -/
inductive Halt where
  | stop (s : Stop)
  | fault (f : Fault)

variable {m : Nat}

/-- Whether the server lets a step of the event loop happen: `updateCache` runs on its thread, and a worker
sends what it has worked out. -/
def ready (s : State m) : EventLoop.Action (Fin (m + 1)) → Bool
  | .pop _ => true
  | .append w reply =>
    match s.phases w with
    | .done result => result = reply
    | _ => false
  | .wakeup _ => true
  | .release _ => true
  | _ => s.calls.isNone

/-- The phases after a step of the event loop: a task that is popped begins. -/
def phasesAfter (phases : Fin (m + 1) → Phase) :
    EventLoop.Action (Fin (m + 1)) → Fin (m + 1) → Phase
  | .pop w => Function.update phases w .begun
  | _ => phases

/-- `threadTask` up to its look into a store. -/
def lookUp (json : Json.Text) (stores : ServerState m) (w : Fin (m + 1)) (msg : Str) :
    Except Fault (ServerState m × Phase) := do
  let (messageId, message) ← readFields json msg
  if messageId = lit "1" then do
    let (caches, getFromLRU) ← stores.manager.caches.get w message
    .ok (stores.setCaches caches,
      if getFromLRU.length = 0 then .missed messageId message else .done getFromLRU)
  else
    let result := redisGet stores.redis message
    .ok (stores, if result.length = 0 then .missed messageId message else .done result)

/-- `doParse` when the store had nothing. -/
def parseMissed (json : Json.Text) (b : Backend) (msg messageId message : Str) : Except Fault Phase := do
  let tocMessage ← doParse json b msg
  .ok (if tocMessage = [] then .done (packMsgToJson json (replyId messageId) tocMessage)
    else .parsed messageId message tocMessage)

/-- `put` of what `doParse` returned. -/
def putParsed (stores : ServerState m) (w : Fin (m + 1)) (messageId message tocMessage : Str) :
    Except Fault (ServerState m) :=
  if messageId = lit "1" then do
    let caches ← stores.manager.caches.put w message tocMessage false
    .ok (stores.setCaches caches)
  else .ok { stores with redis := redisPut stores.redis message tocMessage }

/-- The next step of `updateCache`. -/
def updateStep (manager : CacheManager m) :
    List (Call (m + 1)) → Except Fault (CacheManager m × Option (List (Call (m + 1))))
  | op :: calls => do
    let caches ← call manager.caches op
    .ok ({ manager with caches := caches }, some calls)
  | [] => .ok ({ manager with file := (manager.caches mainCache).writeToFile }, none)

/-- A step of the server. `parse` is the whole of `doParse`, as if no other worker used the MYSQL handle
meanwhile. -/
def step (json : Json.Text) (b : Backend) (s : State m) : Action m → Except Halt (State m)
  | .event a =>
    if ready s a then do
      let loop ← (s.loop.step a).mapError .stop
      .ok { s with loop := loop, phases := phasesAfter s.phases a }
    else .error (.stop .disabled)
  | .look w =>
    match s.loop.workers w, s.phases w with
    | .working t, .begun => do
      let (stores, phase) ← (lookUp json s.stores w t.msg).mapError .fault
      .ok { s with stores := stores, phases := Function.update s.phases w phase }
    | _, _ => .error (.stop .disabled)
  | .parse w =>
    match s.loop.workers w, s.phases w with
    | .working t, .missed messageId message => do
      let phase ← (parseMissed json b t.msg messageId message).mapError .fault
      .ok { s with phases := Function.update s.phases w phase }
    | _, _ => .error (.stop .disabled)
  | .store w =>
    match s.loop.workers w, s.phases w with
    | .working _, .parsed messageId message tocMessage => do
      let stores ← (putParsed s.stores w messageId message tocMessage).mapError .fault
      .ok { s with stores := stores, phases := Function.update s.phases w (.done tocMessage) }
    | _, _ => .error (.stop .disabled)
  | .timer =>
    if s.loop.loop = .waiting ∧ s.calls.isNone then .ok { s with calls := some (updateCalls m) }
    else .error (.stop .disabled)
  | .update =>
    match s.calls with
    | none => .error (.stop .disabled)
    | some calls => do
      let (manager, calls) ← (updateStep s.stores.manager calls).mapError .fault
      .ok { s with stores := { s.stores with manager := manager }, calls := calls }

/-- The server before its first connection. -/
def start (queSize : Nat) (stores : ServerState m) : State m :=
  { loop := EventLoop.start queSize, stores := stores, phases := fun _ => .begun, calls := none }

/-! ## The steps of `threadTask` -/

variable {json : Json.Text} {b : Backend}

/-- The steps one after the other. -/
def uninterrupted (json : Json.Text) (b : Backend) (stores : ServerState m) (w : Fin (m + 1)) (msg : Str) :
    Except Fault (ServerState m × Str) := do
  let (stores, phase) ← lookUp json stores w msg
  match phase with
  | .missed messageId message => do
    let phase ← parseMissed json b msg messageId message
    match phase with
    | .parsed messageId message tocMessage => do
      let stores ← putParsed stores w messageId message tocMessage
      .ok (stores, tocMessage)
    | .done reply => .ok (stores, reply)
    | _ => .ok (stores, [])
  | .done reply => .ok (stores, reply)
  | _ => .ok (stores, [])

/-- **The steps are `threadTask`.** -/
theorem uninterrupted_eq (stores : ServerState m) (w : Fin (m + 1)) (msg : Str) :
    uninterrupted json b stores w msg = threadTask json b stores w msg := by
  unfold uninterrupted lookUp threadTask
  cases hfields : readFields json msg with
  | error fault => rfl
  | ok fields =>
    obtain ⟨messageId, message⟩ := fields
    simp only [Except.ok_bind]
    by_cases hid : messageId = lit "1"
    · subst hid
      simp only [if_true]
      cases hget : stores.manager.caches.get w message with
      | error fault => rfl
      | ok result =>
        obtain ⟨caches, val⟩ := result
        simp only [Except.ok_bind]
        by_cases hmiss : val.length = 0
        · simp only [if_pos hmiss, parseMissed]
          cases doParse json b msg with
          | error fault => rfl
          | ok tocMessage =>
            simp only [Except.ok_bind]
            by_cases hempty : tocMessage = []
            · simp only [if_pos hempty]
              rfl
            · simp only [if_neg hempty, putParsed, if_true]
              have hcaches : (stores.setCaches caches).manager.caches = caches := rfl
              rw [hcaches]
              cases caches.put w message tocMessage false with
              | error fault => rfl
              | ok caches' => rfl
        · simp only [if_neg hmiss]
    · simp only [if_neg hid, Except.ok_bind]
      by_cases hmiss : (redisGet stores.redis message).length = 0
      · simp only [if_pos hmiss, parseMissed]
        cases doParse json b msg with
        | error fault => rfl
        | ok tocMessage =>
          simp only [Except.ok_bind]
          by_cases hempty : tocMessage = []
          · simp only [hempty, ne_eq, not_true_eq_false, if_true, if_false, replyId, if_neg hid]
          · simp only [hempty, ne_eq, not_false_eq_true, if_true, if_false, putParsed, if_neg hid,
              Except.ok_bind]
      · simp only [if_neg hmiss]

/-! ## What each step keeps -/

/-- What a worker in a phase knows of the request. -/
def Knows (json : Json.Text) (b : Backend) (msg : Str) : Phase → Prop
  | .begun => True
  | .missed messageId message => readFields json msg = .ok (messageId, message)
  | .parsed messageId message tocMessage => readFields json msg = .ok (messageId, message) ∧
      doParseFields json b messageId message = .ok tocMessage ∧ tocMessage ≠ []
  | .done reply => directTask json b msg = .ok reply

/-- The steps that a worker has left in `threadTask`. -/
def phaseWork : Phase → Nat
  | .begun => 3
  | .missed .. => 2
  | .parsed .. => 1
  | .done _ => 0

section Phases

variable {stores : ServerState m} {w : Fin (m + 1)} {msg messageId message tocMessage : Str}

/-- A reply of `doParse` for the fields of a request is the reply to it. -/
theorem directTask_of_fields (hfields : readFields json msg = .ok (messageId, message)) {reply : Str}
    (hparse : doParseFields json b messageId message = .ok reply) (hne : reply ≠ []) :
    directTask json b msg = .ok reply := by
  simp only [directTask, hfields, Except.ok_bind, hparse, if_neg hne]

/-- The look into a store fails as the direct reply does, or what it finds is the direct reply. -/
theorem lookUp_knows (hdump : ∀ j, 0 ∉ json.dump j) (h : Transparent json b stores) (w : Fin (m + 1))
    (msg : Str) :
    (∃ fault, lookUp json stores w msg = .error fault ∧ directTask json b msg = .error fault) ∨
      ∃ stores' phase, lookUp json stores w msg = .ok (stores', phase) ∧
        Transparent json b stores' ∧ Knows json b msg phase ∧ phaseWork phase < 3 := by
  unfold lookUp
  cases hfields : readFields json msg with
  | error fault =>
    refine .inl ⟨fault, rfl, ?_⟩
    simp only [directTask, hfields, Except.error_bind]
  | ok fields =>
    obtain ⟨messageId, message⟩ := fields
    refine .inr ?_
    simp only [Except.ok_bind]
    by_cases hid : messageId = lit "1"
    · subst hid
      obtain ⟨c', val, -, hget, hc', -, hval, -⟩ := LRUCache.get_filled (h.caches w) message
      have hcaches := h.caches.set w hc'
      rw [if_pos rfl, Caches.get, hget]
      refine ⟨_, _, rfl, ⟨hcaches, h.redis⟩, ?_⟩
      split
      · exact ⟨hfields, (by decide : 2 < 3)⟩
      · next hlen =>
        obtain ⟨hparse, hne⟩ := hval.resolve_left fun hnil => hlen (by rw [hnil]; rfl)
        exact ⟨directTask_of_fields hfields hparse hne, (by decide : 0 < 3)⟩
    · rw [if_neg hid]
      refine ⟨_, _, rfl, h, ?_⟩
      split
      · exact ⟨hfields, (by decide : 2 < 3)⟩
      · next hlen =>
        have hholds : stores.Holds (Keyword json b)
            fun e => ∃ id, id ≠ lit "1" ∧ doParseFields json b id e.1 = .ok e.2 := ⟨h.caches, h.redis⟩
        have hclean : ∀ e : Str × Str, (∃ id, id ≠ lit "1" ∧ doParseFields json b id e.1 = .ok e.2) →
            0 ∉ e.2 := by
          rintro e ⟨id, -, hparse⟩
          exact doParseFields_clean hdump hparse
        obtain ⟨id, hother, hparse⟩ := (hholds.redisGet hclean message).resolve_left
          fun hnil => hlen (by rw [hnil]; rfl)
        rw [← doParseFields_web hid hother] at hparse
        have hne : redisGet stores.redis message ≠ [] := fun hnil => hlen (by rw [hnil]; rfl)
        exact ⟨directTask_of_fields hfields hparse hne, (by decide : 0 < 3)⟩

/-- `doParse` fails as the direct reply does. -/
theorem parseMissed_knows (hfields : readFields json msg = .ok (messageId, message)) :
    (∃ fault, parseMissed json b msg messageId message = .error fault ∧
        directTask json b msg = .error fault) ∨
      ∃ phase, parseMissed json b msg messageId message = .ok phase ∧ Knows json b msg phase ∧
        phaseWork phase < 2 := by
  unfold parseMissed
  rw [doParse_of_fields hfields]
  cases hparse : doParseFields json b messageId message with
  | error fault =>
    refine .inl ⟨fault, rfl, ?_⟩
    simp only [directTask, hfields, Except.ok_bind, hparse, Except.error_bind]
  | ok reply =>
    refine .inr ⟨_, rfl, ?_⟩
    split
    · next hempty =>
      subst hempty
      refine ⟨?_, (by decide : 0 < 2)⟩
      simp only [Knows, directTask, hfields, Except.ok_bind, hparse, if_true]
      rfl
    · next hne => exact ⟨⟨hfields, hparse, hne⟩, (by decide : 1 < 2)⟩

/-- What is put is a reply of `doParse`. -/
theorem putParsed_knows (h : Transparent json b stores) (w : Fin (m + 1))
    (hknows : Knows json b msg (.parsed messageId message tocMessage)) :
    (∃ stores', putParsed stores w messageId message tocMessage = .ok stores' ∧
      Transparent json b stores') ∧ directTask json b msg = .ok tocMessage := by
  obtain ⟨hfields, hparse, hne⟩ := hknows
  refine ⟨?_, directTask_of_fields hfields hparse hne⟩
  unfold putParsed
  by_cases hid : messageId = lit "1"
  · subst hid
    obtain ⟨c', hput, hc', -⟩ := LRUCache.put_filled (h.caches w) ⟨hparse, hne⟩ false
    rw [if_pos rfl, Caches.put, hput]
    exact ⟨_, rfl, ⟨h.caches.set w hc', h.redis⟩⟩
  · rw [if_neg hid]
    refine ⟨_, rfl, ⟨h.caches, fun key val hval => ?_⟩⟩
    change Function.update stores.redis message (some tocMessage) key = some val at hval
    rw [Function.update_apply] at hval
    split at hval
    · next hkey =>
      obtain rfl := Option.some.inj hval
      exact ⟨messageId, hid, hkey ▸ hparse⟩
    · exact h.redis key val hval

end Phases

/-- What is left of an update lowers with each of its steps. -/
def callsWork : Option (List (Call (m + 1))) → Nat
  | none => 0
  | some calls => calls.length + 1

/-- A step of an update makes no entry up. -/
theorem updateStep_filled {P : Str × Str → Prop} {manager : CacheManager m}
    (h : manager.caches.Filled P) {calls : List (Call (m + 1))}
    (hcalls : ∀ op ∈ calls, op ∈ updateCalls m) :
    ∃ manager' calls', updateStep manager calls = .ok (manager', calls') ∧ manager'.caches.Filled P ∧
      (∀ rest, calls' = some rest → ∀ op ∈ rest, op ∈ updateCalls m) ∧
      callsWork calls' < callsWork (some calls) := by
  cases calls with
  | nil => exact ⟨_, none, rfl, h, fun _ hrest => absurd hrest.symm (Option.some_ne_none _),
      Nat.zero_lt_one⟩
  | cons op rest =>
    obtain ⟨hop, hrest⟩ := List.forall_mem_cons.mp hcalls
    obtain ⟨caches, hcall, hcaches⟩ := filled_call h (puts_updateCalls P op hop)
    refine ⟨{ manager with caches := caches }, some rest, ?_, hcaches, ?_, Nat.lt_succ_self _⟩
    · rw [updateStep, hcall]
      rfl
    · intro rest' heq
      exact Option.some.inj heq ▸ hrest

/-! ## The invariant -/

/-- The stores have only replies of `doParse`, the workers know what they need of their requests, and the
functors have the direct replies. -/
structure Steady (json : Json.Text) (b : Backend) (s : State m) : Prop where
  conserved : s.loop.Conserved
  stores : Transparent json b s.stores
  phases : ∀ w t, s.loop.workers w = .working t → Knows json b t.msg (s.phases w)
  replies : ∀ f ∈ s.loop.appended, ∃ msg, s.loop.received[f.number]? = some (f.con, msg) ∧
    directTask json b msg = .ok f.reply
  calls : ∀ calls, s.calls = some calls → ∀ op ∈ calls, op ∈ updateCalls m

theorem steady_start (queSize : Nat) {stores : ServerState m} (h : Transparent json b stores) :
    Steady json b (start queSize stores) where
  conserved := EventLoop.conserved_start queSize
  stores := h
  phases := fun _ _ _ => trivial
  replies := fun _ hf => absurd hf List.not_mem_nil
  calls := fun _ heq => absurd heq.symm (Option.some_ne_none _)

/-- A worker that sends has worked the reply out. -/
theorem done_of_ready {s : State m} {w : Fin (m + 1)} {reply : Str}
    (h : ready s (.append w reply) = true) : s.phases w = .done reply := by
  simp only [ready] at h
  split at h
  · next result hphase => rw [hphase, of_decide_eq_true h]
  · cases h

theorem Steady.event {s : State m} (h : Steady json b s) {a : EventLoop.Action (Fin (m + 1))}
    (hready : ready s a = true) {loop : EventLoop (Fin (m + 1))} (hstep : s.loop.step a = .ok loop) :
    Steady json b { s with loop := loop, phases := phasesAfter s.phases a } := by
  obtain ⟨⟨more, hreceived⟩, happended, hworking⟩ := EventLoop.account_step hstep
  have hlater : ∀ {k : Nat} {e : Nat × Str}, s.loop.received[k]? = some e →
      loop.received[k]? = some e := by
    intro k e hk
    rw [hreceived, List.getElem?_append_left (List.getElem?_eq_some_iff.mp hk).1, hk]
  refine ⟨h.conserved.step hstep, h.stores, fun w t hw => ?_, fun f hf => ?_, h.calls⟩
  · rcases hworking w t hw with rfl | hbefore
    · simp only [phasesAfter, Function.update_self]
      exact trivial
    · have hknows := h.phases w t hbefore
      dsimp only
      unfold phasesAfter
      split
      · next v =>
        by_cases hwv : w = v
        · subst hwv
          rw [Function.update_self]
          exact trivial
        · rwa [Function.update_of_ne hwv]
      · exact hknows
  · rcases happended f hf with hbefore | ⟨w, t, reply, rfl, hw, rfl⟩
    · obtain ⟨msg, hmsg, hreply⟩ := h.replies f hbefore
      exact ⟨msg, hlater hmsg, hreply⟩
    · have hknows := h.phases w t hw
      rw [done_of_ready hready] at hknows
      exact ⟨t.msg, hlater (h.conserved.workerOrigin w t (by rw [hw]; rfl)), hknows⟩

/-- A step of `threadTask`: what the worker knows of its request is still so. -/
theorem Steady.phase {s : State m} (h : Steady json b s) {w : Fin (m + 1)} {t : Task}
    (hw : s.loop.workers w = .working t) {stores : ServerState m} (hstores : Transparent json b stores)
    {phase : Phase} (hphase : Knows json b t.msg phase) :
    Steady json b { s with stores := stores, phases := Function.update s.phases w phase } := by
  refine ⟨h.conserved, hstores, fun v u hv => ?_, h.replies, h.calls⟩
  by_cases hvw : v = w
  · subst hvw
    obtain rfl := Worker.working.inj (hw.symm.trans hv)
    dsimp only
    rwa [Function.update_self]
  · dsimp only
    rw [Function.update_of_ne hvw]
    exact h.phases v u hv

/-! ## Every step -/

/-- The steps between the arrival of a request and its reply, and those of an update. -/
def Action.Internal : Action m → Prop
  | .event a => ¬ a.OnConnection
  | .timer => False
  | _ => True

/-- A bound on the steps until all requests are answered and no update is under way. -/
def work (s : State m) : Nat := 4 * s.loop.work + total phaseWork s.phases + callsWork s.calls

theorem total_phasesAfter (phases : Fin (m + 1) → Phase) (a : EventLoop.Action (Fin (m + 1))) :
    total phaseWork (phasesAfter phases a) ≤ total phaseWork phases + 3 := by
  unfold phasesAfter
  split
  · next w =>
    have htotal := total_update phaseWork phases w .begun
    have hbegun : phaseWork .begun = 3 := rfl
    omega
  · exact Nat.le_add_right _ _

theorem total_phase {phases : Fin (m + 1) → Phase} {w : Fin (m + 1)} {phase phase' : Phase}
    (hphase : phases w = phase) (h : phaseWork phase' < phaseWork phase) :
    total phaseWork (Function.update phases w phase') < total phaseWork phases := by
  have htotal := total_update phaseWork phases w phase'
  rw [hphase] at htotal
  omega

/-- What a step comes to: it is not possible, or undefined in the event loop; or it fails as the direct
reply to a request in hand does; or it leads to a steady state and lowers the measure, and the event loop
takes a step or stays. -/
def Comes (json : Json.Text) (b : Backend) (s : State m) (a : Action m) : Prop :=
  (∃ e, step json b s a = .error (.stop e) ∧
    (e = .danglingThis → ∃ a', a = .event a' ∧ s.loop.step a' = .error .danglingThis)) ∨
  (∃ fault w t, step json b s a = .error (.fault fault) ∧ s.loop.workers w = .working t ∧
    directTask json b t.msg = .error fault) ∨
  ∃ s', step json b s a = .ok s' ∧ Steady json b s' ∧ (a.Internal → work s' < work s) ∧
    ((∃ a', a = .event a' ∧ s.loop.step a' = .ok s'.loop) ∨ s'.loop = s.loop)

section Step

variable {s : State m}

theorem comes_disabled {a : Action m} (h : step json b s a = .error (.stop .disabled)) :
    Comes json b s a := .inl ⟨.disabled, h, fun heq => by cases heq⟩

theorem comes_event (h : Steady json b s) (a : EventLoop.Action (Fin (m + 1))) :
    Comes json b s (.event a) := by
  by_cases hready : ready s a = true
  · cases hstep : s.loop.step a with
    | error e =>
      refine .inl ⟨e, ?_, fun he => ⟨a, rfl, he ▸ hstep⟩⟩
      simp only [step, if_pos hready, hstep]
      rfl
    | ok loop =>
      refine .inr (.inr ⟨_, ?_, h.event hready hstep, fun hinternal => ?_, .inl ⟨a, rfl, hstep⟩⟩)
      · simp only [step, if_pos hready, hstep]
        rfl
      · have hloop := EventLoop.work_step hinternal hstep
        have hphases := total_phasesAfter s.phases a
        simp only [work]
        omega
  · exact comes_disabled (by simp only [step, if_neg hready])

theorem comes_look (hdump : ∀ j, 0 ∉ json.dump j) (h : Steady json b s) (w : Fin (m + 1)) :
    Comes json b s (.look w) := by
  cases hw : s.loop.workers w with
  | working t =>
    cases hphase : s.phases w with
    | begun =>
      rcases lookUp_knows hdump h.stores w t.msg with
        ⟨fault, hlook, hdirect⟩ | ⟨stores, phase, hlook, hstores, hknows, hless⟩
      · refine .inr (.inl ⟨fault, w, t, ?_, hw, hdirect⟩)
        simp only [step, hw, hphase, hlook]
        rfl
      · refine .inr (.inr ⟨_, ?_, h.phase hw hstores hknows, fun _ => ?_, .inr rfl⟩)
        · simp only [step, hw, hphase, hlook]
          rfl
        · have htotal := total_phase hphase hless
          simp only [work]
          omega
    | _ => exact comes_disabled (by simp only [step, hw, hphase])
  | _ => exact comes_disabled (by simp only [step, hw])

theorem comes_parse (h : Steady json b s) (w : Fin (m + 1)) : Comes json b s (.parse w) := by
  cases hw : s.loop.workers w with
  | working t =>
    cases hphase : s.phases w with
    | missed messageId message =>
      have hfields := h.phases w t hw
      rw [hphase] at hfields
      rcases @parseMissed_knows json b _ _ _ hfields with
        ⟨fault, hparse, hdirect⟩ | ⟨phase, hparse, hknows, hless⟩
      · refine .inr (.inl ⟨fault, w, t, ?_, hw, hdirect⟩)
        simp only [step, hw, hphase, hparse]
        rfl
      · refine .inr (.inr ⟨_, ?_, h.phase hw h.stores hknows, fun _ => ?_, .inr rfl⟩)
        · simp only [step, hw, hphase, hparse]
          rfl
        · have htotal := total_phase hphase hless
          simp only [work]
          omega
    | _ => exact comes_disabled (by simp only [step, hw, hphase])
  | _ => exact comes_disabled (by simp only [step, hw])

theorem comes_store (h : Steady json b s) (w : Fin (m + 1)) : Comes json b s (.store w) := by
  cases hw : s.loop.workers w with
  | working t =>
    cases hphase : s.phases w with
    | parsed messageId message tocMessage =>
      have hknows := h.phases w t hw
      rw [hphase] at hknows
      obtain ⟨⟨stores, hput, hstores⟩, hdirect⟩ := putParsed_knows h.stores w hknows
      have hdone : Knows json b t.msg (.done tocMessage) := hdirect
      refine .inr (.inr ⟨_, ?_, h.phase hw hstores hdone, fun _ => ?_, .inr rfl⟩)
      · simp only [step, hw, hphase, hput]
        rfl
      · have hless : phaseWork (.done tocMessage) < phaseWork (.parsed messageId message tocMessage) :=
          Nat.zero_lt_one
        have htotal := total_phase hphase hless
        simp only [work]
        omega
    | _ => exact comes_disabled (by simp only [step, hw, hphase])
  | _ => exact comes_disabled (by simp only [step, hw])

theorem comes_update (h : Steady json b s) : Comes json b s .update := by
  cases hcalls : s.calls with
  | none => exact comes_disabled (by simp only [step, hcalls])
  | some calls =>
    obtain ⟨manager, calls', hupdate, hcaches, hrest, hless⟩ :=
      updateStep_filled h.stores.caches (h.calls calls hcalls)
    refine .inr (.inr ⟨{ s with stores := { s.stores with manager := manager }, calls := calls' }, ?_,
      ⟨h.conserved, ⟨hcaches, h.stores.redis⟩, h.phases, h.replies, hrest⟩, fun _ => ?_, .inr rfl⟩)
    · simp only [step, hcalls, hupdate]
      rfl
    · rw [← hcalls] at hless
      simp only [work]
      omega

/-- **What every step comes to.** -/
theorem comes (hdump : ∀ j, 0 ∉ json.dump j) (h : Steady json b s) (a : Action m) :
    Comes json b s a := by
  cases a with
  | event a => exact comes_event h a
  | look w => exact comes_look hdump h w
  | parse w => exact comes_parse h w
  | store w => exact comes_store h w
  | update => exact comes_update h
  | timer =>
    by_cases hfires : s.loop.loop = .waiting ∧ s.calls.isNone = true
    · refine .inr (.inr ⟨_, if_pos hfires, ⟨h.conserved, h.stores, h.phases, h.replies, ?_⟩,
        fun hinternal => absurd hinternal id, .inr rfl⟩)
      intro calls heq op hop
      obtain rfl := Option.some.inj heq
      exact hop
    · exact comes_disabled (if_neg hfires)

end Step

/-! ## Runs -/

section Runs

variable {s s' : State m}

theorem steady_step (hdump : ∀ j, 0 ∉ json.dump j) (h : Steady json b s) {a : Action m}
    (hstep : step json b s a = .ok s') : Steady json b s' ∧ (a.Internal → work s' < work s) ∧
      ((∃ a', a = .event a' ∧ s.loop.step a' = .ok s'.loop) ∨ s'.loop = s.loop) := by
  rcases comes hdump h a with ⟨e, herror, -⟩ | ⟨fault, w, t, herror, -⟩ | ⟨s₁, hok, hrest⟩
  · cases herror.symm.trans hstep
  · cases herror.symm.trans hstep
  · obtain rfl := Except.ok.inj (hok.symm.trans hstep)
    exact hrest

theorem open_step (hdump : ∀ j, 0 ∉ json.dump j) (h : Steady json b s) (hopen : s.loop.Open)
    {a : Action m} (ha : ∀ fd, a ≠ .event (.close fd)) (hstep : step json b s a = .ok s') :
    s'.loop.Open := by
  rcases (steady_step hdump h hstep).2.2 with ⟨a', rfl, hloop⟩ | hloop
  · exact hopen.step (fun fd heq => ha fd (heq ▸ rfl)) hloop
  · rw [hloop]
    exact hopen

/-- The requests received are among the messages. -/
theorem received_step (hdump : ∀ j, 0 ∉ json.dump j) (h : Steady json b s) {P : Str → Prop}
    (hP : ∀ e ∈ s.loop.received, P e.2) {a : Action m}
    (ha : ∀ fd msg, a = .event (.message fd msg) → P msg) (hstep : step json b s a = .ok s') :
    ∀ e ∈ s'.loop.received, P e.2 := by
  rcases (steady_step hdump h hstep).2.2 with ⟨a', rfl, hloop⟩ | hloop
  · by_cases hconn : a'.OnConnection
    · cases a' with
      | accept fd =>
        obtain ⟨-, heq⟩ := EventLoop.accept_inv hloop
        rw [heq]
        exact hP
      | close fd =>
        obtain ⟨-, heq⟩ := EventLoop.close_inv hloop
        rw [heq]
        exact hP
      | message fd msg =>
        obtain ⟨-, ⟨-, heq⟩ | ⟨con, -, -, heq⟩⟩ := EventLoop.message_inv hloop
        · rw [heq]
          exact hP
        · rw [heq]
          intro e he
          rcases List.mem_append.mp he with hbefore | hnew
          · exact hP e hbefore
          · obtain rfl := List.mem_singleton.mp hnew
            exact ha fd msg rfl
      | _ => exact absurd hconn id
    · rw [(EventLoop.step_conns hconn hloop).2.2]
      exact hP
  · rw [hloop]
    exact hP

/-- **The replies of the whole server.** However the event loop, the workers in `threadTask` and the
updates interleave while the connections stay open, every functor finds its connection, the server dies
only of a message on which `doParse` fails, and every reply that is sent is the reply of `doParse` for a
request of its connection. -/
theorem replies_steady (hdump : ∀ j, 0 ∉ json.dump j) {queSize : Nat} {stores : ServerState m}
    (hstores : Transparent json b stores) {actions : List (Action m)}
    (hopen : ∀ fd, .event (.close fd) ∉ actions) :
    Run.run (step json b) (start queSize stores) actions ≠ .error (.stop .danglingThis) ∧
    (∀ fault, Run.run (step json b) (start queSize stores) actions = .error (.fault fault) →
      ∃ fd msg, .event (.message fd msg) ∈ actions ∧ directTask json b msg = .error fault) ∧
    ∀ s, Run.run (step json b) (start queSize stores) actions = .ok s →
      ∀ f ∈ s.loop.sent, ∃ msg, s.loop.received[f.number]? = some (f.con, msg) ∧
        directTask json b msg = .ok f.reply := by
  have hstart : Steady json b (start queSize stores) := steady_start queSize hstores
  have hopen₀ : (start queSize stores).loop.Open := fun _ he => absurd he List.not_mem_nil
  have hadmits : ∀ a ∈ actions, ∀ fd, a ≠ .event (.close fd) :=
    fun a ha fd heq => hopen fd (heq ▸ ha)
  refine ⟨?_, fun fault hfault => ?_, fun s hrun f hf => ?_⟩
  · refine Run.run_ne_error (fun s => Steady json b s ∧ s.loop.Open) ?_ ?_ ⟨hstart, hopen₀⟩
      (Run.meets_of_forall hadmits)
    · intro s a s' hs ha hstep
      exact ⟨(steady_step hdump hs.1 hstep).1, open_step hdump hs.1 hs.2 ha hstep⟩
    · intro s a hs _ hstep
      rcases comes hdump hs.1 a with ⟨e, herror, hdangling⟩ | ⟨fault, w, t, herror, -⟩ | ⟨s₁, hok, -⟩
      · have he : e = .danglingThis := Halt.stop.inj (Except.error.inj (herror.symm.trans hstep))
        obtain ⟨a', -, hloop⟩ := hdangling he
        obtain ⟨f, tmp, -, -, htmp, hdead⟩ := EventLoop.step_danglingThis hloop
        have hmem : f ∈ s.loop.tmp ++ s.loop.pengdings :=
          List.mem_append_left _ (htmp ▸ List.mem_cons_self)
        obtain ⟨msg, hreceived⟩ := hs.1.conserved.functorOrigin f (hs.1.conserved.mem_appended hmem)
        exact hdead (.inl (hs.2 _ (List.mem_of_getElem? hreceived)))
      · cases herror.symm.trans hstep
      · cases hok.symm.trans hstep
  · by_contra hnone
    have hgood : ∀ a ∈ actions, ∀ fd msg, a = .event (.message fd msg) →
        directTask json b msg ≠ .error fault :=
      fun a ha fd msg heq hdirect => hnone ⟨fd, msg, heq ▸ ha, hdirect⟩
    refine Run.run_ne_error (fun s => Steady json b s ∧
      ∀ e ∈ s.loop.received, directTask json b e.2 ≠ .error fault) ?_ ?_
      ⟨hstart, fun _ he => absurd he List.not_mem_nil⟩ (Run.meets_of_forall hgood) hfault
    · intro s a s' hs ha hstep
      exact ⟨(steady_step hdump hs.1 hstep).1, received_step hdump hs.1 hs.2 ha hstep⟩
    · intro s a hs _ hstep
      rcases comes hdump hs.1 a with ⟨e, herror, -⟩ | ⟨fault', w, t, herror, hw, hdirect⟩ | ⟨s₁, hok, -⟩
      · cases herror.symm.trans hstep
      · have he : fault' = fault := Halt.fault.inj (Except.error.inj (herror.symm.trans hstep))
        have hreceived := hs.1.conserved.workerOrigin w t (by rw [hw]; rfl)
        exact hs.2 _ (List.mem_of_getElem? hreceived) (he ▸ hdirect)
      · cases hok.symm.trans hstep
  · have hs : Steady json b s := Run.run_keeps (Steady json b)
      (fun _ _ _ h hstep => (steady_step hdump h hstep).1) hstart hrun
    refine hs.replies f ?_
    rw [hs.conserved.order]
    exact List.mem_append_left _ hf

/-- A step of the event loop that needs no reply is possible in the server when no update is under way. -/
theorem ready_of_not_replies {a : EventLoop.Action (Fin (m + 1))} (hcalls : s.calls = none)
    (ha : ¬ a.Replies) : ready s a = true := by
  cases a with
  | append w reply => exact absurd trivial ha
  | _ => simp only [ready, hcalls, Option.isNone_none]

/-- **As long as a request is not answered, the server goes on.** -/
theorem goes_on (hdump : ∀ j, 0 ∉ json.dump j) (h : Steady json b s) (hopen : s.loop.Open)
    (hgood : ∀ e ∈ s.loop.received, ∃ reply, directTask json b e.2 = .ok reply) :
    s.loop.Quiet ∨ ∃ a s', a.Internal ∧ step json b s a = .ok s' := by
  -- a step that can only fail as a direct reply does, does not fail
  have hpossible : ∀ {a : Action m}, a.Internal → (∀ e, step json b s a ≠ .error (.stop e)) →
      ∃ a s', a.Internal ∧ step json b s a = .ok s' := by
    intro a ha hstop
    rcases comes hdump h a with ⟨e, herror, -⟩ | ⟨fault, w, t, herror, hw, hdirect⟩ | ⟨s₁, hok, -⟩
    · exact absurd herror (hstop e)
    · have hreceived := h.conserved.workerOrigin w t (by rw [hw]; rfl)
      obtain ⟨reply, hreply⟩ := hgood _ (List.mem_of_getElem? hreceived)
      cases hreply.symm.trans hdirect
    · exact ⟨a, s₁, ha, hok⟩
  have hthrows : ∀ {α : Type} {x : Except Fault α} {f : α → State m} {e : Stop},
      (x.mapError Halt.fault >>= fun a => .ok (f a)) ≠ .error (.stop e) := by
    intro α x f e heq
    cases x with
    | error fault => cases heq
    | ok a => cases heq
  cases hcalls : s.calls with
  | some calls =>
    refine .inr (hpossible (a := .update) trivial fun e => ?_)
    simp only [step, hcalls]
    exact hthrows
  | none =>
    rcases EventLoop.goes_on h.conserved hopen with hquiet | ⟨w, t, hw⟩ | ⟨a, loop, ha, hno, hstep⟩
    · exact .inl hquiet
    · refine .inr ?_
      cases hphase : s.phases w with
      | begun =>
        refine hpossible (a := .look w) trivial fun e => ?_
        simp only [step, hw, hphase]
        exact hthrows
      | missed messageId message =>
        refine hpossible (a := .parse w) trivial fun e => ?_
        simp only [step, hw, hphase]
        exact hthrows
      | parsed messageId message tocMessage =>
        refine hpossible (a := .store w) trivial fun e => ?_
        simp only [step, hw, hphase]
        exact hthrows
      | done reply =>
        refine hpossible (a := .event (.append w reply)) id fun e => ?_
        have hready : ready s (.append w reply) = true := by simp only [ready, hphase, decide_true]
        simp only [step, if_pos hready, EventLoop.step, hw]
        exact fun heq => by cases heq
    · refine .inr (hpossible (a := .event a) ha fun e => ?_)
      simp only [step, if_pos (ready_of_not_replies hcalls hno), hstep]
      exact fun heq => by cases heq

/-- A request that was answered once has one reply, on its connection. -/
theorem sent_eq (h : Steady json b s) {number con : Nat} {msg : Str}
    (hreceived : s.loop.received[number]? = some (con, msg))
    (hsent : s.loop.sent.countP (·.number = number) = 1) :
    ∃ reply, directTask json b msg = .ok reply ∧
      s.loop.sent.filter (·.number = number) = [⟨number, con, reply⟩] := by
  rw [List.countP_eq_length_filter] at hsent
  obtain ⟨⟨number', con', reply⟩, hf⟩ := List.length_eq_one_iff.mp hsent
  have hmem := List.mem_filter.mp (hf ▸ List.mem_singleton_self _ :
    (⟨number', con', reply⟩ : Pending) ∈ s.loop.sent.filter (·.number = number))
  obtain rfl : number' = number := of_decide_eq_true hmem.2
  have happended : (⟨number', con', reply⟩ : Pending) ∈ s.loop.appended := by
    rw [h.conserved.order]
    exact List.mem_append_left _ hmem.1
  obtain ⟨msg', hmsg, hdirect⟩ := h.replies _ happended
  obtain ⟨rfl, rfl⟩ := Prod.mk.inj (Option.some.inj (hreceived.symm.trans hmsg))
  exact ⟨reply, hdirect, hf⟩

/-- **Every request is answered.** From any state that the server comes to while the connections stay open,
the steps behind the requests received are bounded, whatever their order; and when none of them is
possible, each request for which `doParse` has a reply has been answered once, with that reply, on its
connection. Some such run there is. -/
theorem requests_answered (hdump : ∀ j, 0 ∉ json.dump j) {queSize : Nat} {stores : ServerState m}
    (hstores : Transparent json b stores) {actions : List (Action m)}
    (hopen : ∀ fd, .event (.close fd) ∉ actions)
    (hrun : Run.run (step json b) (start queSize stores) actions = .ok s)
    (hgood : ∀ e ∈ s.loop.received, ∃ reply, directTask json b e.2 = .ok reply) :
    (∀ later s', (∀ a ∈ later, a.Internal) → Run.run (step json b) s later = .ok s' →
      later.length ≤ work s ∧ ((∀ a, a.Internal → ∀ s'', step json b s' a ≠ .ok s'') →
        ∀ number con msg, s.loop.received[number]? = some (con, msg) →
          ∃ reply, directTask json b msg = .ok reply ∧
            s'.loop.sent.filter (·.number = number) = [⟨number, con, reply⟩])) ∧
    ∃ later s', (∀ a ∈ later, a.Internal) ∧ Run.run (step json b) s later = .ok s' ∧
      ∀ a, a.Internal → ∀ s'', step json b s' a ≠ .ok s'' := by
  have hadmits : ∀ a ∈ actions, ∀ fd, a ≠ .event (.close fd) :=
    fun a ha fd heq => hopen fd (heq ▸ ha)
  have hs : Steady json b s ∧ s.loop.Open :=
    Run.run_keeps_of (fun s => Steady json b s ∧ s.loop.Open) (fun a => ∀ fd, a ≠ .event (.close fd))
      (fun s a s' hs ha hstep => ⟨(steady_step hdump hs.1 hstep).1, open_step hdump hs.1 hs.2 ha hstep⟩)
      ⟨steady_start queSize hstores, fun _ he => absurd he List.not_mem_nil⟩ hadmits hrun
  -- the requests stay as they are
  have hlowers : ∀ (s₁ : State m) (a : Action m) (s₂ : State m),
      (Steady json b s₁ ∧ s₁.loop.Open ∧ s₁.loop.received = s.loop.received) →
      a.Internal → step json b s₁ a = .ok s₂ →
      (Steady json b s₂ ∧ s₂.loop.Open ∧ s₂.loop.received = s.loop.received) ∧ work s₂ < work s₁ := by
    intro s₁ a s₂ h₁ ha hstep
    obtain ⟨hsteady, hless, hloop⟩ := steady_step hdump h₁.1 hstep
    have hclose : ∀ fd, a ≠ .event (.close fd) := by
      rintro fd rfl
      exact ha trivial
    refine ⟨⟨hsteady, open_step hdump h₁.1 h₁.2.1 hclose hstep, ?_⟩, hless ha⟩
    rcases hloop with ⟨a', rfl, hloop⟩ | hloop
    · exact (EventLoop.step_conns ha hloop).2.2.trans h₁.2.2
    · rw [hloop, h₁.2.2]
  have hinv : Steady json b s ∧ s.loop.Open ∧ s.loop.received = s.loop.received := ⟨hs.1, hs.2, rfl⟩
  refine ⟨fun later s' hinternal hlater => ?_, Run.exists_stuck _ _ work hlowers hinv⟩
  obtain ⟨⟨hsteady, hopen', hsame⟩, hbound⟩ := Run.run_lowers _ _ work hlowers hinv hinternal hlater
  refine ⟨by omega, fun hstuck number con msg hreceived => ?_⟩
  have hquiet : s'.loop.Quiet := by
    rcases goes_on hdump hsteady hopen' (hsame ▸ hgood) with hquiet | ⟨a, s'', ha, hstep⟩
    · exact hquiet
    · exact absurd hstep (hstuck a ha s'')
  rw [← hsame] at hreceived
  exact sent_eq hsteady hreceived
    (hquiet.sent hsteady.conserved (List.getElem?_eq_some_iff.mp hreceived).1)

end Runs

/-! ### A request behind an update -/

def smallBackend : Backend where
  mixed _ := .ok []
  english word := .ok (if word = lit "hello" then word else [])
  chinese _ := .ok []
  webPage _ := .ok []

def smallStores : ServerState 2 :=
  { manager := { caches := fun _ => LRUCache.new 3, file := [] }, redis := fun _ => none }

def request : Str := Json.flat.dump (packJson (lit "1") (lit "Hello"))

/-- The timer fires while a worker is in `threadTask`, and another request comes behind the update. -/
def smallActions : List (Action 2) :=
  [.event (.accept 5), .event (.message 5 request), .event (.pop 1), .look 1, .timer, .update, .parse 1,
    .update, .store 1, .update, .update, .update, .update, .update, .update, .update,
    .event (.message 5 request)]

theorem replies_steady_hello :
    Run.run (step Json.flat smallBackend) (start 4 smallStores) smallActions ≠
        .error (.stop .danglingThis) ∧
      ∀ s, Run.run (step Json.flat smallBackend) (start 4 smallStores) smallActions = .ok s →
        ∀ f ∈ s.loop.sent, ∃ msg, s.loop.received[f.number]? = some (f.con, msg) ∧
          directTask Json.flat smallBackend msg = .ok f.reply := by
  have hopen : ∀ fd, .event (.close fd) ∉ smallActions := by
    intro fd hclose
    simp [smallActions] at hclose
  have hstores : Transparent Json.flat smallBackend smallStores := transparent_new []
  obtain ⟨hdangling, -, hsent⟩ := @replies_steady _ _ _ Json.flat_clean 4 _ hstores _ hopen
  exact ⟨hdangling, hsent⟩

/-- The first request is answered. -/
theorem requests_answered_hello : ∃ s later s' reply,
    Run.run (step Json.flat smallBackend) (start 4 smallStores) smallActions = .ok s ∧
      Run.run (step Json.flat smallBackend) s later = .ok s' ∧
      directTask Json.flat smallBackend request = .ok reply ∧
      s'.loop.sent.filter (·.number = 0) = [⟨0, 0, reply⟩] := by
  have hopen : ∀ fd, .event (.close fd) ∉ smallActions := by
    intro fd hclose
    simp [smallActions] at hclose
  have hstores : Transparent Json.flat smallBackend smallStores := transparent_new []
  obtain ⟨s, hrun, hcheck⟩ := Except.exists_of_check
    (show (Run.run (step Json.flat smallBackend) (start 4 smallStores) smallActions).check
      (fun s => s.loop.received = [(0, request), (0, request)]) = true by decide +kernel)
  have hreceived := of_decide_eq_true hcheck
  have hgood : ∀ e ∈ s.loop.received, ∃ reply, directTask Json.flat smallBackend e.2 = .ok reply := by
    rw [hreceived]
    have hdirect : (directTask Json.flat smallBackend request).check (fun _ => true) = true := by
      decide +kernel
    obtain ⟨reply, hreply, -⟩ := Except.exists_of_check hdirect
    simpa using ⟨reply, hreply⟩
  obtain ⟨hall, later, s', hinternal, hlater, hstuck⟩ :=
    requests_answered Json.flat_clean hstores hopen hrun hgood
  obtain ⟨reply, hreply, hsent⟩ :=
    (hall later s' hinternal hlater).2 hstuck 0 0 request (by rw [hreceived]; rfl)
  exact ⟨s, later, s', reply, hrun, hlater, hreply, hsent⟩

end Service

end LightSearch
