import LightSearch.Lib.Run
import LightSearch.Lib.Threads
import Mathlib.Data.Fintype.Basic

/-!
# The task queue

A monitor with one mutex and two condition variables. A thread holds the mutex from the moment it
enters `push` or `pop`, or comes back from a wait, to the moment it waits or leaves; so such a section
is one step here. What the step cannot know is whom its signal wakes: the action names the threads,
and the step checks that they sleep on the condition variable and that there is one if anybody sleeps
there.

A signal wakes one thread at least, and the thread that gets the mutex next may be another. So a
woken thread may find the queue empty again and go back to sleep. The invariant counts the woken
threads: as long as a consumer sleeps there are as many of them as tasks, and as long as a producer
sleeps as many as free places (`Sound`).
-/

set_option autoImplicit false

universe u v w

namespace LightSearch

open Threads

/-- A thread that puts tasks: it is outside `push`, it waits on `_notFull` with its task, or it was
woken and has to get the mutex back. -/
inductive Producer (E : Type w) where
  | outside
  | asleep (task : E)
  | woken (task : E)

/-- A thread that takes tasks: outside `pop`, waiting on `_notEmpty`, or woken. -/
inductive Consumer where
  | outside
  | asleep
  | woken
  deriving DecidableEq

namespace Producer

variable {E : Type w}

/-- The thread waits. -/
def Sleeps : Producer E → Prop
  | asleep _ => True
  | _ => False

/-- The thread was woken and has not got the mutex back: a signal is pending. -/
def Signalled : Producer E → Prop
  | woken _ => True
  | _ => False

instance : DecidablePred (Sleeps (E := E))
  | outside => isFalse id
  | asleep _ => isTrue trivial
  | woken _ => isFalse id

instance : DecidablePred (Signalled (E := E))
  | outside => isFalse id
  | asleep _ => isFalse id
  | woken _ => isTrue trivial

/-- Waking a waiting thread. -/
def wakeUp : Producer E → Producer E
  | asleep task => woken task
  | t => t

theorem not_signalled {t : Producer E} (h : t.Sleeps) : ¬ t.Signalled := by
  cases t with
  | outside => exact id
  | asleep task => exact id
  | woken task => exact absurd h id

theorem signalled_wakeUp {t : Producer E} (h : t.Sleeps) : t.wakeUp.Signalled := by
  cases t with
  | outside => exact absurd h id
  | asleep task => trivial
  | woken task => exact absurd h id

end Producer

namespace Consumer

/-- Waking a waiting thread. -/
def wakeUp : Consumer → Consumer
  | asleep => woken
  | t => t

end Consumer

/-- The queue with the states of its threads, and the tasks pushed and popped so far. -/
structure TaskQueue (P : Type u) (C : Type v) (E : Type w) where
  queSize : Nat
  que : List E
  flag : Bool
  producers : P → Producer E
  consumers : C → Consumer
  pushed : List E
  popped : List E

namespace TaskQueue

variable {P : Type u} {C : Type v} {E : Type w}

/-- A new queue, and its threads. -/
def new (queSize : Nat) : TaskQueue P C E :=
  { queSize := queSize, que := [], flag := true, producers := fun _ => .outside,
    consumers := fun _ => .outside, pushed := [], popped := [] }

/-- `empty`. -/
def empty (s : TaskQueue P C E) : Bool := 0 = s.que.length

/-- `full`. -/
def full (s : TaskQueue P C E) : Bool := s.queSize = s.que.length

variable [DecidableEq P] [DecidableEq C] [Fintype P] [Fintype C]

/-- `push` with the mutex held: wait on `_notFull`, or put the task and signal `_notEmpty`. -/
def pushSection (s : TaskQueue P C E) (p : P) (task : E) (woken : Finset C) :
    Except Run.Disabled (TaskQueue P C E) :=
  if s.full then .ok { s with producers := Function.update s.producers p (.asleep task) }
  else if Signals (· = .asleep) s.consumers woken then
    .ok
      { s with
        que := s.que ++ [task]
        pushed := s.pushed ++ [task]
        producers := Function.update s.producers p .outside
        consumers := wake s.consumers woken Consumer.wakeUp }
  else .error .disabled

/-- `pop` with the mutex held: wait on `_notEmpty`, or take the first task and signal `_notFull`, or
return without a task after `wakeup`. -/
def popSection (s : TaskQueue P C E) (c : C) (woken : Finset P) :
    Except Run.Disabled (TaskQueue P C E) :=
  if s.empty && s.flag then .ok { s with consumers := Function.update s.consumers c .asleep }
  else if s.flag then
    match s.que with
    -- not here: the queue is not empty
    | [] => .error .disabled
    | task :: que =>
      if Signals Producer.Sleeps s.producers woken then
        .ok
          { s with
            que := que
            popped := s.popped ++ [task]
            consumers := Function.update s.consumers c .outside
            producers := wake s.producers woken Producer.wakeUp }
      else .error .disabled
  else .ok { s with consumers := Function.update s.consumers c .outside }

/-- What happens at the queue: a thread enters `push` or `pop`, a woken thread gets the mutex back, a
waiting thread wakes without a signal, or `wakeup` is called. -/
inductive Action (P : Type u) (C : Type v) (E : Type w) where
  | push (p : P) (task : E) (woken : Finset C)
  | pushAgain (p : P) (woken : Finset C)
  | pop (c : C) (woken : Finset P)
  | popAgain (c : C) (woken : Finset P)
  | spuriousPush (p : P)
  | spuriousPop (c : C)
  | wakeup
  deriving DecidableEq

/-- One section, or one of the other events. -/
def step (s : TaskQueue P C E) : Action P C E → Except Run.Disabled (TaskQueue P C E)
  | .push p task woken =>
    match s.producers p with
    | .outside => s.pushSection p task woken
    | _ => .error .disabled
  | .pushAgain p woken =>
    match s.producers p with
    | .woken task => s.pushSection p task woken
    | _ => .error .disabled
  | .pop c woken =>
    match s.consumers c with
    | .outside => s.popSection c woken
    | _ => .error .disabled
  | .popAgain c woken =>
    match s.consumers c with
    | .woken => s.popSection c woken
    | _ => .error .disabled
  | .spuriousPush p =>
    match s.producers p with
    | .asleep task => .ok { s with producers := Function.update s.producers p (.woken task) }
    | _ => .error .disabled
  | .spuriousPop c =>
    match s.consumers c with
    | .asleep => .ok { s with consumers := Function.update s.consumers c .woken }
    | _ => .error .disabled
  | .wakeup => .ok { s with flag := false, consumers := fun c => (s.consumers c).wakeUp }

/-! ## The invariant -/

/-- The number of consumers that were woken and have not got the mutex back. -/
def wokenConsumers (s : TaskQueue P C E) : Nat := count (· = .woken) s.consumers

/-- The same for the producers. -/
def wokenProducers (s : TaskQueue P C E) : Nat := count Producer.Signalled s.producers

/-- Before `wakeup`: the queue holds what was pushed and not popped, and while a thread sleeps there
are enough woken ones for all that is there to take, or for all the places to fill. -/
structure Sound (q : Nat) (s : TaskQueue P C E) : Prop where
  size : s.queSize = q
  flag : s.flag = true
  bounded : s.que.length ≤ q
  fifo : s.pushed = s.popped ++ s.que
  tasks : (∃ c, s.consumers c = .asleep) → s.que.length ≤ s.wokenConsumers
  places : (∃ p, (s.producers p).Sleeps) → q ≤ s.que.length + s.wokenProducers

omit [DecidableEq P] [DecidableEq C] in
theorem sound_new (q : Nat) : Sound q (new q : TaskQueue P C E) where
  size := rfl
  flag := rfl
  bounded := Nat.zero_le q
  fifo := rfl
  tasks := fun ⟨_, h⟩ => nomatch h
  places := fun ⟨_, h⟩ => absurd h id

/-- `push` keeps the invariant, whether the thread just came or was woken. -/
theorem Sound.push {q : Nat} {s s' : TaskQueue P C E} (h : Sound q s) {p : P} {task : E}
    {woken : Finset C} (hpush : s.pushSection p task woken = .ok s') : Sound q s' := by
  unfold pushSection at hpush
  have hsize := h.size
  have hbounded := h.bounded
  split at hpush
  · next hfull =>
    -- the thread waits: there is no free place
    obtain rfl := Except.ok.inj hpush
    have hlen : s.queSize = s.que.length := of_decide_eq_true hfull
    exact ⟨hsize, h.flag, hbounded, h.fifo, h.tasks, fun _ => by dsimp only; omega⟩
  · next hfull =>
    have hlen : s.queSize ≠ s.que.length := fun hlen => hfull (decide_eq_true hlen)
    split at hpush
    · next hsignal =>
      -- the task is put: a consumer is woken, and one place less is free
      obtain rfl := Except.ok.inj hpush
      constructor
      · exact hsize
      · exact h.flag
      · simp only [List.length_append, List.length_singleton]
        omega
      · rw [h.fifo, List.append_assoc]
      · intro hasleep
        have hbefore := exists_of_wake hsignal hasleep
        have hcount := count_signal (· = Consumer.woken) hsignal (g := Consumer.wakeUp) hbefore
          (by rintro a rfl; decide) (by rintro a rfl; rfl)
        have htasks := h.tasks hbefore
        simp only [wokenConsumers, List.length_append, List.length_singleton] at htasks ⊢
        omega
      · intro hasleep
        have hplaces := h.places (exists_of_update id hasleep)
        have hcount := count_update Producer.Signalled s.producers p Producer.outside
        have houtside : ¬ (Producer.outside : Producer E).Signalled := id
        rw [if_neg houtside] at hcount
        simp only [wokenProducers, List.length_append, List.length_singleton] at hplaces ⊢
        split at hcount <;> omega
    · cases hpush

/-- `pop` keeps the invariant. -/
theorem Sound.pop {q : Nat} {s s' : TaskQueue P C E} (h : Sound q s) {c : C} {woken : Finset P}
    (hpop : s.popSection c woken = .ok s') : Sound q s' := by
  unfold popSection at hpop
  have hbounded := h.bounded
  split at hpop
  · next hempty =>
    -- the thread waits: there is no task
    obtain rfl := Except.ok.inj hpop
    have hlen : 0 = s.que.length := of_decide_eq_true (Bool.and_eq_true_iff.mp hempty).1
    exact ⟨h.size, h.flag, hbounded, h.fifo, fun _ => by dsimp only; omega, h.places⟩
  · rw [if_pos h.flag] at hpop
    split at hpop
    · cases hpop
    · next task que hque =>
      split at hpop
      · next hsignal =>
        -- the task is taken: a producer is woken, and one task less is there
        obtain rfl := Except.ok.inj hpop
        have hlen : s.que.length = que.length + 1 := by rw [hque, List.length_cons]
        constructor
        · exact h.size
        · exact h.flag
        · dsimp only
          omega
        · rw [h.fifo, hque, List.append_assoc]
          rfl
        · intro hasleep
          have htasks := h.tasks
            (exists_of_update (q := (· = Consumer.asleep)) Consumer.noConfusion hasleep)
          have hcount := count_update (· = Consumer.woken) s.consumers c Consumer.outside
          have houtside : ¬ Consumer.outside = .woken := Consumer.noConfusion
          rw [if_neg houtside] at hcount
          simp only [wokenConsumers] at htasks ⊢
          split at hcount <;> omega
        · intro hasleep
          have hbefore := exists_of_wake hsignal hasleep
          have hcount := count_signal Producer.Signalled hsignal (g := Producer.wakeUp) hbefore
            (fun _ => Producer.not_signalled) (fun _ => Producer.signalled_wakeUp)
          have hplaces := h.places hbefore
          simp only [wokenProducers] at hplaces ⊢
          omega
      · cases hpop

omit [DecidableEq C] in
/-- A producer wakes without a signal. -/
theorem Sound.spuriousPush {q : Nat} {s : TaskQueue P C E} (h : Sound q s) (p : P) (task : E) :
    Sound q { s with producers := Function.update s.producers p (.woken task) } := by
  refine ⟨h.size, h.flag, h.bounded, h.fifo, h.tasks, fun hasleep => ?_⟩
  have hplaces := h.places (exists_of_update id hasleep)
  have hcount := count_update Producer.Signalled s.producers p (Producer.woken task)
  have hwoken : (Producer.woken task).Signalled := trivial
  rw [if_pos hwoken] at hcount
  simp only [wokenProducers] at hplaces ⊢
  split at hcount <;> omega

omit [DecidableEq P] in
/-- A consumer wakes without a signal. -/
theorem Sound.spuriousPop {q : Nat} {s : TaskQueue P C E} (h : Sound q s) (c : C) :
    Sound q { s with consumers := Function.update s.consumers c .woken } := by
  refine ⟨h.size, h.flag, h.bounded, h.fifo, fun hasleep => ?_, h.places⟩
  have htasks := h.tasks
    (exists_of_update (q := (· = Consumer.asleep)) Consumer.noConfusion hasleep)
  have hcount := count_update (· = Consumer.woken) s.consumers c Consumer.woken
  rw [if_pos rfl] at hcount
  simp only [wokenConsumers] at htasks ⊢
  split at hcount <;> omega

/-- Every step but `wakeup` keeps the invariant. -/
theorem Sound.step {q : Nat} {s s' : TaskQueue P C E} (h : Sound q s) {a : Action P C E}
    (ha : a ≠ .wakeup) (hstep : s.step a = .ok s') : Sound q s' := by
  cases a with
  | push p task woken =>
    simp only [TaskQueue.step] at hstep
    split at hstep
    · exact h.push hstep
    · cases hstep
  | pushAgain p woken =>
    simp only [TaskQueue.step] at hstep
    split at hstep
    · exact h.push hstep
    · cases hstep
  | pop c woken =>
    simp only [TaskQueue.step] at hstep
    split at hstep
    · exact h.pop hstep
    · cases hstep
  | popAgain c woken =>
    simp only [TaskQueue.step] at hstep
    split at hstep
    · exact h.pop hstep
    · cases hstep
  | spuriousPush p =>
    simp only [TaskQueue.step] at hstep
    split at hstep
    · next task _ => exact Except.ok.inj hstep ▸ h.spuriousPush p task
    · cases hstep
  | spuriousPop c =>
    simp only [TaskQueue.step] at hstep
    split at hstep
    · exact Except.ok.inj hstep ▸ h.spuriousPop c
    · cases hstep
  | wakeup => exact absurd rfl ha

/-! ## Runs -/

/-- There are tasks, and all consumers, at least one, sleep with no signal on its way. -/
def ConsumersStuck (s : TaskQueue P C E) : Prop :=
  s.que ≠ [] ∧ (∃ c, s.consumers c = .asleep) ∧ ∀ c, s.consumers c = .asleep

/-- There are free places, and all producers, at least one, sleep with no signal on its way. -/
def ProducersStuck (s : TaskQueue P C E) : Prop :=
  s.full = false ∧ (∃ p, (s.producers p).Sleeps) ∧ ∀ p, (s.producers p).Sleeps

omit [DecidableEq P] [DecidableEq C] in
/-- While all consumers sleep nobody is woken, so there is no task. -/
theorem Sound.not_consumersStuck {q : Nat} {s : TaskQueue P C E} (h : Sound q s) :
    ¬ s.ConsumersStuck := by
  rintro ⟨htask, hsome, hall⟩
  have htasks := h.tasks hsome
  have hzero : s.wokenConsumers = 0 :=
    count_eq_zero _ fun c hc => Consumer.noConfusion ((hall c).symm.trans hc)
  apply htask
  apply List.length_eq_zero_iff.mp
  omega

omit [DecidableEq P] [DecidableEq C] in
/-- While all producers sleep nobody is woken, so there is no free place. -/
theorem Sound.not_producersStuck {q : Nat} {s : TaskQueue P C E} (h : Sound q s) :
    ¬ s.ProducersStuck := by
  rintro ⟨hplace, hsome, hall⟩
  have hplaces := h.places hsome
  have hzero : s.wokenProducers = 0 := count_eq_zero _ fun p => Producer.not_signalled (hall p)
  have hsize := h.size
  have hbounded := h.bounded
  have hfull : s.full = true := decide_eq_true (by omega)
  rw [hfull] at hplace
  cases hplace

/-- **The bounded queue.** In every state that the queue reaches before `wakeup`, however the
sections of the threads interleave, it holds at most `q` tasks, the tasks popped are the first ones
pushed, in order, and neither all consumers sleep while there are tasks nor all producers while there
are free places. -/
theorem task_queue_bounded {q : Nat} {actions : List (Action P C E)} {s : TaskQueue P C E}
    (hbefore : .wakeup ∉ actions) (hrun : Run.run step (new q) actions = .ok s) :
    s.que.length ≤ q ∧ s.popped <+: s.pushed ∧ s.pushed = s.popped ++ s.que ∧ ¬ s.ConsumersStuck ∧
      ¬ s.ProducersStuck := by
  have hadmits : ∀ a ∈ actions, a ≠ .wakeup := fun a ha hwakeup => hbefore (hwakeup ▸ ha)
  have hsound : Sound q s :=
    Run.run_keeps_of (Sound q) (· ≠ .wakeup) (fun _ _ _ hs ha hstep => hs.step ha hstep)
      (sound_new q) hadmits hrun
  exact ⟨hsound.bounded, ⟨s.que, hsound.fifo.symm⟩, hsound.fifo, hsound.not_consumersStuck,
    hsound.not_producersStuck⟩

/-- A woken consumer finds its task taken by one that came later, and waits for the next. -/
theorem task_queue_bounded_barge :
    ∃ s : TaskQueue (Fin 1) (Fin 2) Nat,
      (Action.wakeup ∉ ([.pop 0 ∅, .push 0 7 {0}, .pop 1 ∅, .popAgain 0 ∅, .push 0 8 {0},
          .popAgain 0 ∅] : List (Action (Fin 1) (Fin 2) Nat)) ∧
        Run.run step (new 1) [.pop 0 ∅, .push 0 7 {0}, .pop 1 ∅, .popAgain 0 ∅, .push 0 8 {0},
          .popAgain 0 ∅] = .ok s) ∧
      s.que.length ≤ 1 ∧ s.popped <+: s.pushed ∧ s.pushed = s.popped ++ s.que ∧ ¬ s.ConsumersStuck ∧
        ¬ s.ProducersStuck := by
  obtain ⟨s, hrun, -⟩ := Except.exists_of_check
    (show (Run.run step (new 1 : TaskQueue (Fin 1) (Fin 2) Nat) [.pop 0 ∅, .push 0 7 {0}, .pop 1 ∅,
      .popAgain 0 ∅, .push 0 8 {0}, .popAgain 0 ∅]).check (fun s => s.popped = [7, 8]) = true by
        decide)
  exact ⟨s, ⟨by decide, hrun⟩, task_queue_bounded (by decide) hrun⟩

end TaskQueue

end LightSearch
