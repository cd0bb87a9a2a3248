import LightSearch.Lib.Cxx
import LightSearch.Lib.Run
import LightSearch.Lib.Threads
import Mathlib.Data.Fintype.Basic

/-!
# The way of a request through the server

The event loop receives a request and pushes a task, a worker pops it, computes the reply and appends
a functor to `_pengdings`, and the event loop runs the functor, which sends the reply. The two sides
share two queues and the eventfd that brings the loop out of `epoll_wait`.

The signal is sent outside the lock: the worker appends, and then writes the eventfd; the loop reads
the eventfd, and then swaps `_pengdings` out. So between the two steps of either side the counter says
nothing about the list, and the invariant has to count the workers that are still about to write
(`Conserved.woken`).

A connection object lives as long as something owns it: `_conns`, a task in the queue, or the task
that a worker has in hand. A functor does not own the connection it is bound to. Running one whose
connection is gone is undefined behaviour, and ends the run (`Stop.danglingThis`).

The task queue is seen from outside here: tasks come out of it in the order they went in.
-/

set_option autoImplicit false
set_option linter.unusedSectionVars false

universe u

namespace LightSearch

open Cxx Threads

/-! ## The machine -/

/-- A task in the queue: the connection and the message bound to `threadTask`. `number` tells the
requests apart. -/
structure Task where
  number : Nat
  con : Nat
  msg : Str
  deriving DecidableEq

/-- A `Functor` in `_pengdings`: `send` bound to a connection and a reply. -/
structure Pending where
  number : Nat
  con : Nat
  reply : Str
  deriving DecidableEq

/-- A worker in `doTask`: it has no task, it executes one, it has appended the functor and is about to
write the eventfd, or it is done and still has the task object. -/
inductive Worker where
  | idle
  | working (t : Task)
  | writing (t : Task)
  | finished (t : Task)
  deriving DecidableEq

/-- The task object that a worker has. -/
def Worker.task : Worker → Option Task
  | idle => none
  | working t => some t
  | writing t => some t
  | finished t => some t

/-- The worker has the request in hand and has not replied to it. -/
def Worker.Holds (number : Nat) : Worker → Prop
  | working t => t.number = number
  | _ => False

instance (number : Nat) : DecidablePred (Worker.Holds number)
  | .idle => isFalse id
  | .working t => inferInstanceAs (Decidable (t.number = number))
  | .writing _ => isFalse id
  | .finished _ => isFalse id

/-- The event loop: in `epoll_wait` or handling one of its events, between the read of the eventfd and
the swap, or running the functors it swapped out. -/
inductive Loop where
  | waiting
  | woken
  | running
  deriving DecidableEq

/-- The event loop and the workers. `received`, `appended` and `sent` are an account of what happened
so far. -/
structure EventLoop (W : Type u) where
  queSize : Nat
  conns : List (Nat × Nat)
  accepted : Nat
  tasks : List Task
  workers : W → Worker
  pengdings : List Pending
  tmp : List Pending
  eventfd : Nat
  loop : Loop
  received : List (Nat × Str)
  appended : List Pending
  sent : List Pending

/-- Why a run ends: the action is not possible, or a functor runs on a connection that is gone. -/
inductive Stop where
  | disabled
  | danglingThis
  deriving DecidableEq

namespace EventLoop

variable {W : Type u}

/-- The server before its first connection. The eventfd starts at 10. -/
def start (queSize : Nat) : EventLoop W :=
  { queSize := queSize, conns := [], accepted := 0, tasks := [], workers := fun _ => .idle,
    pengdings := [], tmp := [], eventfd := 10, loop := .waiting, received := [], appended := [],
    sent := [] }

/-- A connection object has an owner. -/
def Alive (s : EventLoop W) (con : Nat) : Prop :=
  con ∈ s.conns.map Prod.snd ∨ con ∈ s.tasks.map Task.con ∨
    ∃ w, con ∈ (s.workers w).task.map Task.con

instance [Fintype W] (s : EventLoop W) (con : Nat) : Decidable (s.Alive con) :=
  inferInstanceAs (Decidable (_ ∨ _ ∨ _))

/-- What happens at the server. The steps of the event loop: a connection is accepted, a message
arrives or the peer has closed, the eventfd is read, the functors are swapped out, the next one runs,
the last one has run. The steps of a worker: it pops a task, appends the functor, writes the eventfd,
destroys the task. -/
inductive Action (W : Type u) where
  | accept (fd : Nat)
  | message (fd : Nat) (msg : Str)
  | close (fd : Nat)
  | handleRead
  | swap
  | run
  | leave
  | pop (w : W)
  | append (w : W) (reply : Str)
  | wakeup (w : W)
  | release (w : W)
  deriving DecidableEq

variable [DecidableEq W] [Fintype W]

def step (s : EventLoop W) : Action W → Except Stop (EventLoop W)
  | .accept fd =>
    if s.loop = .waiting then
      .ok
        { s with
          -- `insert` leaves an entry that is there
          conns := if fd ∈ s.conns.map Prod.fst then s.conns else s.conns ++ [(fd, s.accepted)]
          accepted := s.accepted + 1 }
    else .error .disabled
  | .message fd msg =>
    if s.loop = .waiting then
      match s.conns.lookup fd with
      | none => .ok s
      | some con =>
        -- `push` waits while the queue is full
        if s.tasks.length = s.queSize then .error .disabled
        else
          .ok
            { s with
              tasks := s.tasks ++ [⟨s.received.length, con, msg⟩]
              received := s.received ++ [(con, msg)] }
    else .error .disabled
  | .close fd =>
    if s.loop = .waiting then .ok { s with conns := s.conns.filter fun e => e.1 ≠ fd }
    else .error .disabled
  | .handleRead =>
    if s.loop = .waiting ∧ 0 < s.eventfd then .ok { s with eventfd := 0, loop := .woken }
    else .error .disabled
  | .swap =>
    if s.loop = .woken then .ok { s with tmp := s.pengdings, pengdings := [], loop := .running }
    else .error .disabled
  | .run =>
    match s.loop, s.tmp with
    | .running, f :: tmp =>
      if s.Alive f.con then .ok { s with tmp := tmp, sent := s.sent ++ [f] }
      else .error .danglingThis
    | _, _ => .error .disabled
  | .leave =>
    match s.loop, s.tmp with
    | .running, [] => .ok { s with loop := .waiting }
    | _, _ => .error .disabled
  | .pop w =>
    match s.workers w, s.tasks with
    | .idle, t :: tasks =>
      .ok { s with tasks := tasks, workers := Function.update s.workers w (.working t) }
    | _, _ => .error .disabled
  | .append w reply =>
    match s.workers w with
    | .working t =>
      .ok
        { s with
          pengdings := s.pengdings ++ [⟨t.number, t.con, reply⟩]
          appended := s.appended ++ [⟨t.number, t.con, reply⟩]
          workers := Function.update s.workers w (.writing t) }
    | _ => .error .disabled
  | .wakeup w =>
    match s.workers w with
    | .writing t =>
      -- a `write` waits while the counter is at its maximum
      if s.eventfd < 2 ^ 64 - 2 then
        .ok
          { s with
            eventfd := s.eventfd + 1
            workers := Function.update s.workers w (.finished t) }
      else .error .disabled
    | _ => .error .disabled
  | .release w =>
    match s.workers w with
    | .finished _ => .ok { s with workers := Function.update s.workers w .idle }
    | _ => .error .disabled

/-! ## What a step does -/

section Inversion

variable {s s' : EventLoop W} {fd : Nat} {msg reply : Str} {w : W}

theorem accept_inv (hstep : s.step (.accept fd) = .ok s') : s.loop = .waiting ∧ s' = { s with
    conns := if fd ∈ s.conns.map Prod.fst then s.conns else s.conns ++ [(fd, s.accepted)]
    accepted := s.accepted + 1 } := by
  simp only [EventLoop.step] at hstep
  split at hstep
  · next hloop => exact ⟨hloop, (Except.ok.inj hstep).symm⟩
  · cases hstep

theorem message_inv (hstep : s.step (.message fd msg) = .ok s') : s.loop = .waiting ∧
    (s.conns.lookup fd = none ∧ s' = s ∨
      ∃ con, s.conns.lookup fd = some con ∧ s.tasks.length ≠ s.queSize ∧ s' = { s with
        tasks := s.tasks ++ [⟨s.received.length, con, msg⟩]
        received := s.received ++ [(con, msg)] }) := by
  simp only [EventLoop.step] at hstep
  split at hstep
  · next hloop =>
    refine ⟨hloop, ?_⟩
    split at hstep
    · next hlookup => exact .inl ⟨hlookup, (Except.ok.inj hstep).symm⟩
    · next con hlookup =>
      split at hstep
      · cases hstep
      · next hroom => exact .inr ⟨con, hlookup, hroom, (Except.ok.inj hstep).symm⟩
  · cases hstep

theorem close_inv (hstep : s.step (.close fd) = .ok s') :
    s.loop = .waiting ∧ s' = { s with conns := s.conns.filter fun e => e.1 ≠ fd } := by
  simp only [EventLoop.step] at hstep
  split at hstep
  · next hloop => exact ⟨hloop, (Except.ok.inj hstep).symm⟩
  · cases hstep

theorem handleRead_inv (hstep : s.step .handleRead = .ok s') :
    s.loop = .waiting ∧ 0 < s.eventfd ∧ s' = { s with eventfd := 0, loop := .woken } := by
  simp only [EventLoop.step] at hstep
  split at hstep
  · next hready => exact ⟨hready.1, hready.2, (Except.ok.inj hstep).symm⟩
  · cases hstep

theorem swap_inv (hstep : s.step .swap = .ok s') :
    s.loop = .woken ∧ s' = { s with tmp := s.pengdings, pengdings := [], loop := .running } := by
  simp only [EventLoop.step] at hstep
  split at hstep
  · next hloop => exact ⟨hloop, (Except.ok.inj hstep).symm⟩
  · cases hstep

theorem run_inv (hstep : s.step .run = .ok s') : ∃ f tmp, s.loop = .running ∧ s.tmp = f :: tmp ∧
    s.Alive f.con ∧ s' = { s with tmp := tmp, sent := s.sent ++ [f] } := by
  simp only [EventLoop.step] at hstep
  split at hstep
  · next f tmp hloop htmp =>
    split at hstep
    · next halive => exact ⟨f, tmp, hloop, htmp, halive, (Except.ok.inj hstep).symm⟩
    · cases hstep
  · cases hstep

theorem leave_inv (hstep : s.step .leave = .ok s') :
    s.loop = .running ∧ s.tmp = [] ∧ s' = { s with loop := .waiting } := by
  simp only [EventLoop.step] at hstep
  split at hstep
  · next hloop htmp => exact ⟨hloop, htmp, (Except.ok.inj hstep).symm⟩
  · cases hstep

theorem pop_inv (hstep : s.step (.pop w) = .ok s') : ∃ t tasks, s.workers w = .idle ∧
    s.tasks = t :: tasks ∧
    s' = { s with tasks := tasks, workers := Function.update s.workers w (.working t) } := by
  simp only [EventLoop.step] at hstep
  split at hstep
  · next t tasks hidle htasks => exact ⟨t, tasks, hidle, htasks, (Except.ok.inj hstep).symm⟩
  · cases hstep

theorem append_inv (hstep : s.step (.append w reply) = .ok s') : ∃ t, s.workers w = .working t ∧
    s' = { s with
      pengdings := s.pengdings ++ [⟨t.number, t.con, reply⟩]
      appended := s.appended ++ [⟨t.number, t.con, reply⟩]
      workers := Function.update s.workers w (.writing t) } := by
  simp only [EventLoop.step] at hstep
  split at hstep
  · next t hw => exact ⟨t, hw, (Except.ok.inj hstep).symm⟩
  · cases hstep

theorem wakeup_inv (hstep : s.step (.wakeup w) = .ok s') : ∃ t, s.workers w = .writing t ∧
    s.eventfd < 2 ^ 64 - 2 ∧ s' = { s with
      eventfd := s.eventfd + 1
      workers := Function.update s.workers w (.finished t) } := by
  simp only [EventLoop.step] at hstep
  split at hstep
  · next t hw =>
    split at hstep
    · next hbound => exact ⟨t, hw, hbound, (Except.ok.inj hstep).symm⟩
    · cases hstep
  · cases hstep

theorem release_inv (hstep : s.step (.release w) = .ok s') : ∃ t, s.workers w = .finished t ∧
    s' = { s with workers := Function.update s.workers w .idle } := by
  simp only [EventLoop.step] at hstep
  split at hstep
  · next t hw => exact ⟨t, hw, (Except.ok.inj hstep).symm⟩
  · cases hstep

end Inversion

/-! ## The invariant -/

/-- How often a request occurs in the places where it can be: the task queue, the hands of the
workers, `_pengdings`, the vector swapped out, and the replies sent. -/
def places (s : EventLoop W) (number : Nat) : Nat :=
  s.tasks.countP (·.number = number) + count (Worker.Holds number) s.workers +
    s.pengdings.countP (·.number = number) + s.tmp.countP (·.number = number) +
    s.sent.countP (·.number = number)

/-- No request is lost or doubled, every one keeps its connection, the functors keep their order, and
`_pengdings` does not fill without somebody to wake the loop. -/
structure Conserved (s : EventLoop W) : Prop where
  tmp : s.loop ≠ .running → s.tmp = []
  onePlace : ∀ number, s.places number = if number < s.received.length then 1 else 0
  taskOrigin : ∀ t ∈ s.tasks, s.received[t.number]? = some (t.con, t.msg)
  workerOrigin : ∀ w t, (s.workers w).task = some t → s.received[t.number]? = some (t.con, t.msg)
  functorOrigin : ∀ f ∈ s.appended, ∃ msg, s.received[f.number]? = some (f.con, msg)
  order : s.appended = s.sent ++ (s.tmp ++ s.pengdings)
  woken : s.loop ≠ .woken → s.pengdings ≠ [] → 0 < s.eventfd ∨ ∃ w t, s.workers w = .writing t

theorem conserved_start (queSize : Nat) : Conserved (start queSize : EventLoop W) where
  tmp := fun _ => rfl
  onePlace := fun number => by
    have hcount : count (Worker.Holds number) (fun _ : W => Worker.idle) = 0 :=
      count_eq_zero _ fun _ => id
    simp only [places, start, hcount, List.countP_nil, List.length_nil, Nat.not_lt_zero, ↓reduceIte,
      Nat.add_zero]
  taskOrigin := fun _ h => absurd h List.not_mem_nil
  workerOrigin := fun _ _ h => nomatch h
  functorOrigin := fun _ h => absurd h List.not_mem_nil
  order := rfl
  woken := fun _ h => absurd rfl h

/-- A request received: it is in the queue. -/
theorem Conserved.message {s : EventLoop W} (h : s.Conserved) (con : Nat) (msg : Str) :
    Conserved
      { s with
        tasks := s.tasks ++ [⟨s.received.length, con, msg⟩]
        received := s.received ++ [(con, msg)] } := by
  -- what was received before is still there
  have hold : ∀ (n : Nat) (e : Nat × Str), s.received[n]? = some e →
      (s.received ++ [(con, msg)])[n]? = some e := by
    intro n e he
    rw [List.getElem?_append_left (List.getElem?_eq_some_iff.mp he).1]
    exact he
  refine ⟨h.tmp, fun number => ?_, fun t ht => ?_, fun w t ht => hold _ _ (h.workerOrigin w t ht),
    fun f hf => ?_, h.order, h.woken⟩
  · have hplaces := h.onePlace number
    simp only [places, List.countP_append, List.countP_singleton, decide_eq_true_eq,
      List.length_append, List.length_singleton] at hplaces ⊢
    split <;> split at hplaces <;> split <;> omega
  · rcases List.mem_append.mp ht with hbefore | hnew
    · exact hold _ _ (h.taskOrigin t hbefore)
    · obtain rfl := List.mem_singleton.mp hnew
      exact List.getElem?_concat_length
  · obtain ⟨msg', hf'⟩ := h.functorOrigin f hf
    exact ⟨msg', hold _ _ hf'⟩

/-- A worker that is not writing moves: who writes is still writing. -/
theorem writing_of_update {s : EventLoop W} {w : W} {t : Worker} (hw : ∀ u, s.workers w ≠ .writing u)
    (h : ∃ v u, s.workers v = .writing u) :
    ∃ v u, Function.update s.workers w t v = .writing u := by
  obtain ⟨v, u, hv⟩ := h
  have hne : v ≠ w := fun heq => hw u (heq ▸ hv)
  exact ⟨v, u, by rw [Function.update_of_ne hne, hv]⟩

/-- A worker moves to another task object or none: the task it has now is that one, and the others
keep theirs. -/
theorem task_of_update {f : W → Worker} {w v : W} {t : Worker} {u : Task}
    (h : (Function.update f w t v).task = some u) : t.task = some u ∨ (f v).task = some u := by
  by_cases hv : v = w
  · subst hv
    rw [Function.update_self] at h
    exact .inl h
  · rw [Function.update_of_ne hv] at h
    exact .inr h

/-- A worker takes a task in hand. -/
theorem count_holds_take {f : W → Worker} {w : W} (hidle : f w = .idle) (t : Task) (number : Nat) :
    count (Worker.Holds number) (Function.update f w (.working t)) =
      count (Worker.Holds number) f + if t.number = number then 1 else 0 := by
  have hcount := count_update (Worker.Holds number) f w (.working t)
  have hbefore : ¬ (f w).Holds number := fun hw => by rw [hidle] at hw; exact hw
  rw [if_neg hbefore] at hcount
  exact hcount

/-- A worker has replied to the task in its hand. -/
theorem count_holds_reply {f : W → Worker} {w : W} {t : Task} (hw : f w = .working t) (number : Nat) :
    count (Worker.Holds number) (Function.update f w (.writing t)) +
        (if t.number = number then 1 else 0) = count (Worker.Holds number) f := by
  have hcount := count_update (Worker.Holds number) f w (.writing t)
  rw [hw] at hcount
  exact hcount

/-- A worker with nothing in hand moves to a state with nothing in hand. -/
theorem count_holds_other {f : W → Worker} {w : W} {u t : Worker} {number : Nat} (hw : f w = u)
    (hu : ¬ u.Holds number) (ht : ¬ t.Holds number) :
    count (Worker.Holds number) (Function.update f w t) = count (Worker.Holds number) f := by
  have hcount := count_update (Worker.Holds number) f w t
  rw [hw, if_neg hu, if_neg ht] at hcount
  exact hcount

/-- A task popped: the worker has it in hand. -/
theorem Conserved.pop {s : EventLoop W} (h : s.Conserved) {w : W} {t : Task} {tasks : List Task}
    (hidle : s.workers w = .idle) (htasks : s.tasks = t :: tasks) :
    Conserved { s with tasks := tasks, workers := Function.update s.workers w (.working t) } := by
  have hnot : ∀ u, s.workers w ≠ .writing u := fun u hu => nomatch hidle.symm.trans hu
  refine ⟨h.tmp, fun number => ?_, fun u hu => h.taskOrigin u (htasks ▸ List.mem_cons_of_mem t hu),
    fun v u hu => ?_, h.functorOrigin, h.order,
    fun hloop hpend => (h.woken hloop hpend).imp id (writing_of_update hnot)⟩
  · have hplaces := h.onePlace number
    have hcount := count_holds_take hidle t number
    simp only [places, htasks, List.countP_cons, decide_eq_true_eq] at hplaces ⊢
    omega
  · rcases task_of_update hu with hnew | hbefore
    · obtain rfl := Option.some.inj hnew
      exact h.taskOrigin t (htasks ▸ List.mem_cons_self)
    · exact h.workerOrigin v u hbefore

/-- A functor appended: the worker is about to write the eventfd. -/
theorem Conserved.append {s : EventLoop W} (h : s.Conserved) {w : W} {t : Task} (reply : Str)
    (hw : s.workers w = .working t) :
    Conserved
      { s with
        pengdings := s.pengdings ++ [⟨t.number, t.con, reply⟩]
        appended := s.appended ++ [⟨t.number, t.con, reply⟩]
        workers := Function.update s.workers w (.writing t) } := by
  have htask : s.received[t.number]? = some (t.con, t.msg) := h.workerOrigin w t (by rw [hw]; rfl)
  refine ⟨h.tmp, fun number => ?_, h.taskOrigin, fun v u hu => ?_, fun f hf => ?_, ?_,
    fun _ _ => .inr ⟨w, t, Function.update_self _ _ _⟩⟩
  · have hplaces := h.onePlace number
    have hcount := count_holds_reply hw number
    simp only [places, List.countP_append, List.countP_singleton, decide_eq_true_eq] at hplaces ⊢
    omega
  · rcases task_of_update hu with hnew | hbefore
    · obtain rfl := Option.some.inj hnew
      exact htask
    · exact h.workerOrigin v u hbefore
  · rcases List.mem_append.mp hf with hbefore | hnew
    · exact h.functorOrigin f hbefore
    · obtain rfl := List.mem_singleton.mp hnew
      exact ⟨t.msg, htask⟩
  · rw [h.order, List.append_assoc, List.append_assoc]

/-- The eventfd written: the counter is positive. -/
theorem Conserved.wakeup {s : EventLoop W} (h : s.Conserved) {w : W} {t : Task}
    (hw : s.workers w = .writing t) :
    Conserved
      { s with eventfd := s.eventfd + 1, workers := Function.update s.workers w (.finished t) } := by
  refine ⟨h.tmp, fun number => ?_, h.taskOrigin, fun v u hu => ?_, h.functorOrigin, h.order,
    fun _ _ => .inl (Nat.succ_pos _)⟩
  · have hplaces := h.onePlace number
    have hcount : count (Worker.Holds number) (Function.update s.workers w (.finished t)) = _ :=
      count_holds_other hw id id
    simp only [places] at hplaces ⊢
    omega
  · rcases task_of_update hu with hnew | hbefore
    · obtain rfl := Option.some.inj hnew
      exact h.workerOrigin w t (by rw [hw]; rfl)
    · exact h.workerOrigin v u hbefore

/-- A task object destroyed. -/
theorem Conserved.release {s : EventLoop W} (h : s.Conserved) {w : W} {t : Task}
    (hw : s.workers w = .finished t) :
    Conserved { s with workers := Function.update s.workers w .idle } := by
  have hnot : ∀ u, s.workers w ≠ .writing u := fun u hu => nomatch hw.symm.trans hu
  refine ⟨h.tmp, fun number => ?_, h.taskOrigin, fun v u hu => ?_, h.functorOrigin, h.order,
    fun hloop hpend => (h.woken hloop hpend).imp id (writing_of_update hnot)⟩
  · have hplaces := h.onePlace number
    have hcount : count (Worker.Holds number) (Function.update s.workers w .idle) = _ :=
      count_holds_other hw id id
    simp only [places] at hplaces ⊢
    omega
  · rcases task_of_update hu with hnew | hbefore
    · cases hnew
    · exact h.workerOrigin v u hbefore

/-- The functors swapped out. Those appended from now on have a wakeup of their own. -/
theorem Conserved.swap {s : EventLoop W} (h : s.Conserved) (hloop : s.loop = .woken) :
    Conserved { s with tmp := s.pengdings, pengdings := [], loop := .running } := by
  have htmp : s.tmp = [] := h.tmp (by rw [hloop]; exact Loop.noConfusion)
  refine ⟨fun hrunning => absurd rfl hrunning, fun number => ?_, h.taskOrigin, h.workerOrigin,
    h.functorOrigin, ?_, fun _ hpend => absurd rfl hpend⟩
  · have hplaces := h.onePlace number
    simp only [places, htmp, List.countP_nil] at hplaces ⊢
    omega
  · rw [h.order, htmp, List.nil_append, List.append_nil]

/-- A functor run: its reply is sent. -/
theorem Conserved.run {s : EventLoop W} (h : s.Conserved) (hloop : s.loop = .running) {f : Pending}
    {tmp : List Pending} (htmp : s.tmp = f :: tmp) :
    Conserved { s with tmp := tmp, sent := s.sent ++ [f] } := by
  refine ⟨fun hrunning => absurd hloop hrunning, fun number => ?_, h.taskOrigin, h.workerOrigin,
    h.functorOrigin, ?_, h.woken⟩
  · have hplaces := h.onePlace number
    simp only [places, htmp, List.countP_cons, List.countP_append, List.countP_nil,
      decide_eq_true_eq] at hplaces ⊢
    omega
  · rw [h.order, htmp, List.append_assoc]
    rfl

/-- **Every step keeps the invariant.** -/
theorem Conserved.step {s s' : EventLoop W} (h : s.Conserved) {a : Action W}
    (hstep : s.step a = .ok s') : s'.Conserved := by
  cases a with
  | accept fd =>
    obtain ⟨-, rfl⟩ := accept_inv hstep
    exact ⟨h.tmp, h.onePlace, h.taskOrigin, h.workerOrigin, h.functorOrigin, h.order, h.woken⟩
  | message fd msg =>
    obtain ⟨-, ⟨-, rfl⟩ | ⟨con, -, -, rfl⟩⟩ := message_inv hstep
    · exact h
    · exact h.message con msg
  | close fd =>
    obtain ⟨-, rfl⟩ := close_inv hstep
    exact ⟨h.tmp, h.onePlace, h.taskOrigin, h.workerOrigin, h.functorOrigin, h.order, h.woken⟩
  | handleRead =>
    obtain ⟨hloop, -, rfl⟩ := handleRead_inv hstep
    have htmp := h.tmp (by rw [hloop]; exact Loop.noConfusion)
    exact ⟨fun _ => htmp, h.onePlace, h.taskOrigin, h.workerOrigin, h.functorOrigin, h.order,
      fun hwoken => absurd rfl hwoken⟩
  | swap =>
    obtain ⟨hloop, rfl⟩ := swap_inv hstep
    exact h.swap hloop
  | run =>
    obtain ⟨f, tmp, hloop, htmp, -, rfl⟩ := run_inv hstep
    exact h.run hloop htmp
  | leave =>
    obtain ⟨hloop, htmp, rfl⟩ := leave_inv hstep
    have hnot : s.loop ≠ .woken := by rw [hloop]; exact Loop.noConfusion
    exact ⟨fun _ => htmp, h.onePlace, h.taskOrigin, h.workerOrigin, h.functorOrigin, h.order,
      fun _ => h.woken hnot⟩
  | pop w =>
    obtain ⟨t, tasks, hidle, htasks, rfl⟩ := pop_inv hstep
    exact h.pop hidle htasks
  | append w reply =>
    obtain ⟨t, hw, rfl⟩ := append_inv hstep
    exact h.append reply hw
  | wakeup w =>
    obtain ⟨t, hw, -, rfl⟩ := wakeup_inv hstep
    exact h.wakeup hw
  | release w =>
    obtain ⟨t, hw, rfl⟩ := release_inv hstep
    exact h.release hw

/-! ## Runs -/

/-- While no connection is closed, those that requests came from stay in `_conns`. -/
def Open (s : EventLoop W) : Prop := ∀ e ∈ s.received, e.1 ∈ s.conns.map Prod.snd

/-- The entry found for a key is one of the map. -/
theorem entry_of_lookup {conns : List (Nat × Nat)} {fd con : Nat} (h : conns.lookup fd = some con) :
    (fd, con) ∈ conns := by
  obtain ⟨l₁, l₂, rfl, -⟩ := List.lookup_eq_some_iff.mp h
  exact List.mem_append_right _ List.mem_cons_self

theorem mem_of_lookup {conns : List (Nat × Nat)} {fd con : Nat} (h : conns.lookup fd = some con) :
    con ∈ conns.map Prod.snd :=
  List.mem_map.mpr ⟨(fd, con), entry_of_lookup h, rfl⟩

/-- The action is one of those for a connection. -/
def Action.OnConnection : Action W → Prop
  | .accept _ => True
  | .message _ _ => True
  | .close _ => True
  | _ => False

/-- The steps between the arrival of a message and its reply leave the connections as they are. -/
theorem step_conns {s s' : EventLoop W} {a : Action W} (ha : ¬ a.OnConnection)
    (hstep : s.step a = .ok s') :
    s'.conns = s.conns ∧ s'.accepted = s.accepted ∧ s'.received = s.received := by
  cases a with
  | accept fd => exact absurd trivial ha
  | message fd msg => exact absurd trivial ha
  | close fd => exact absurd trivial ha
  | handleRead =>
    obtain ⟨-, -, rfl⟩ := handleRead_inv hstep
    exact ⟨rfl, rfl, rfl⟩
  | swap =>
    obtain ⟨-, rfl⟩ := swap_inv hstep
    exact ⟨rfl, rfl, rfl⟩
  | run =>
    obtain ⟨f, tmp, -, -, -, rfl⟩ := run_inv hstep
    exact ⟨rfl, rfl, rfl⟩
  | leave =>
    obtain ⟨-, -, rfl⟩ := leave_inv hstep
    exact ⟨rfl, rfl, rfl⟩
  | pop w =>
    obtain ⟨t, tasks, -, -, rfl⟩ := pop_inv hstep
    exact ⟨rfl, rfl, rfl⟩
  | append w reply =>
    obtain ⟨t, -, rfl⟩ := append_inv hstep
    exact ⟨rfl, rfl, rfl⟩
  | wakeup w =>
    obtain ⟨t, -, -, rfl⟩ := wakeup_inv hstep
    exact ⟨rfl, rfl, rfl⟩
  | release w =>
    obtain ⟨t, -, rfl⟩ := release_inv hstep
    exact ⟨rfl, rfl, rfl⟩

theorem Open.step {s s' : EventLoop W} (h : s.Open) {a : Action W} (ha : ∀ fd, a ≠ .close fd)
    (hstep : s.step a = .ok s') : s'.Open := by
  cases a with
  | accept fd =>
    obtain ⟨-, rfl⟩ := accept_inv hstep
    intro e he
    dsimp only
    split
    · exact h e he
    · rw [List.map_append]
      exact List.mem_append_left _ (h e he)
  | message fd msg =>
    obtain ⟨-, ⟨-, rfl⟩ | ⟨con, hlookup, -, rfl⟩⟩ := message_inv hstep
    · exact h
    · intro e he
      rcases List.mem_append.mp he with hbefore | hnew
      · exact h e hbefore
      · obtain rfl := List.mem_singleton.mp hnew
        exact mem_of_lookup hlookup
  | close fd => exact absurd rfl (ha fd)
  | _ =>
    obtain ⟨hconns, -, hreceived⟩ := step_conns id hstep
    unfold Open
    rw [hconns, hreceived]
    exact h

/-- A step ends in undefined behaviour only when it runs a functor on a connection without owner. -/
theorem step_danglingThis {s : EventLoop W} {a : Action W} (hstep : s.step a = .error .danglingThis) :
    ∃ f tmp, a = .run ∧ s.loop = .running ∧ s.tmp = f :: tmp ∧ ¬ s.Alive f.con := by
  cases a with
  | run =>
    simp only [EventLoop.step] at hstep
    split at hstep
    · next f tmp hloop htmp =>
      split at hstep
      · cases hstep
      · next hdead => exact ⟨f, tmp, rfl, hloop, htmp, hdead⟩
    · cases hstep
  | _ =>
    simp only [EventLoop.step] at hstep
    repeat' split at hstep
    all_goals cases hstep

/-- The functors swapped out were appended. -/
theorem Conserved.mem_appended {s : EventLoop W} (h : s.Conserved) {f : Pending}
    (hf : f ∈ s.tmp ++ s.pengdings) : f ∈ s.appended := by
  rw [h.order]
  exact List.mem_append_right _ hf

/-- **No reply is lost, doubled, misrouted or stranded.** However the event loop and the workers
interleave while the connections stay open, every functor finds its connection, and in every state
reached each request received is in exactly one place, each reply sent went to the connection its
request came from, the functors ran in the order they were appended, and when the loop waits with
`_pengdings` not empty, the eventfd is readable or a worker is about to make it so. -/
theorem replies_conserved {queSize : Nat} {actions : List (Action W)}
    (hopen : ∀ fd, .close fd ∉ actions) :
    Run.run step (start queSize) actions ≠ .error .danglingThis ∧
    ∀ s, Run.run step (start queSize) actions = .ok s →
      (∀ number, number < s.received.length → s.places number = 1) ∧
      (∀ f ∈ s.sent, ∃ msg, s.received[f.number]? = some (f.con, msg)) ∧
      s.sent <+: s.appended ∧
      (s.loop = .waiting → s.pengdings ≠ [] →
        0 < s.eventfd ∨ ∃ w t, s.workers w = .writing t) := by
  have hadmits : ∀ a ∈ actions, ∀ fd, a ≠ .close fd := fun a ha fd heq => hopen fd (heq ▸ ha)
  constructor
  · refine Run.run_ne_error (fun s => s.Conserved ∧ s.Open) ?_ ?_ ⟨conserved_start queSize, ?_⟩
      (Run.meets_of_forall hadmits)
    · intro s a s' hs ha hstep
      exact ⟨hs.1.step hstep, hs.2.step ha hstep⟩
    · intro s a hs _ hstep
      obtain ⟨f, tmp, -, -, htmp, hdead⟩ := step_danglingThis hstep
      obtain ⟨msg, hreceived⟩ := hs.1.functorOrigin f (hs.1.mem_appended (by
        rw [htmp]; exact List.mem_append_left _ List.mem_cons_self))
      exact hdead (.inl (hs.2 _ (List.mem_of_getElem? hreceived)))
    · exact fun _ h => absurd h List.not_mem_nil
  · intro s hrun
    have hs : s.Conserved :=
      Run.run_keeps Conserved (fun _ _ _ h hstep => h.step hstep) (conserved_start queSize) hrun
    refine ⟨fun number hnumber => ?_, fun f hf => hs.functorOrigin f ?_, ⟨_, hs.order.symm⟩,
      fun hloop => hs.woken (by rw [hloop]; exact Loop.noConfusion)⟩
    · rw [hs.onePlace number, if_pos hnumber]
    · rw [hs.order]
      exact List.mem_append_left _ hf

/-- Two workers. The second reply is appended while the loop runs the first, and its wakeup is still
to come when the loop waits again. -/
theorem replies_conserved_two :
    let actions : List (Action (Fin 2)) :=
      [.accept 5, .accept 6, .message 5 (lit "a"), .message 6 (lit "b"), .pop 0, .pop 1,
        .append 1 (lit "B"), .wakeup 1, .handleRead, .swap, .append 0 (lit "A"), .run, .leave]
    (∀ fd, .close fd ∉ actions) ∧
    ∃ s : EventLoop (Fin 2), Run.run step (start 4) actions = .ok s ∧
      (Run.run step (start 4) actions ≠ .error .danglingThis ∧
      ∀ s, Run.run step (start 4) actions = .ok s →
        (∀ number, number < s.received.length → s.places number = 1) ∧
        (∀ f ∈ s.sent, ∃ msg, s.received[f.number]? = some (f.con, msg)) ∧
        s.sent <+: s.appended ∧
        (s.loop = .waiting → s.pengdings ≠ [] →
          0 < s.eventfd ∨ ∃ w t, s.workers w = .writing t)) := by
  intro actions
  have hopen : ∀ fd, .close fd ∉ actions := by
    intro fd hclose
    simp only [actions, List.mem_cons, List.not_mem_nil, reduceCtorEq, or_self] at hclose
  obtain ⟨s, hrun, -⟩ := Except.exists_of_check
    (show (Run.run step (start 4) actions).check (fun s => s.sent = [⟨1, 1, lit "B"⟩]) = true by
      decide)
  exact ⟨hopen, s, hrun, replies_conserved hopen⟩

end EventLoop

end LightSearch
