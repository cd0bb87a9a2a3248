import LightSearch.Lib.Run
import LightSearch.Lib.Threads
import Mathlib.Data.Fintype.Basic

/-!
# Stopping the thread pool

The workers of the pool go round `doTask` and `pop`, and `stop` waits for an empty queue, sets
`_isExit`, calls `wakeup` and joins the workers. `wakeup` does not take the mutex of the queue: it
clears `_flag` and then broadcasts, and a worker that has the mutex may be anywhere meanwhile. So the
steps are finer here than those of `TaskQueue`, where `pop` is one section: the check of the loop in
`pop` and the wait behind it are two steps.

A worker between the two is not asleep yet, and the broadcast does not reach it. `NoneBetween` is the
condition that no broadcast is made then. It is what keeps every worker from sleeping behind `wakeup`,
and then each worker has a way to its end (`stop_strands_iff`).
-/

set_option autoImplicit false

universe u v

namespace LightSearch

open Threads

namespace ThreadPool

/-- Where a worker is. -/
inductive Worker (E : Type v) where
  /-- At the test of the loop of `doTask`. -/
  | testing
  /-- In `pop`, without the mutex. -/
  | entering
  /-- At the check of the loop of `pop`, with the mutex. -/
  | checking
  /-- The check was true, and the wait comes next. -/
  | waiting
  | asleep
  /-- It was woken, and has to get the mutex back. -/
  | woken
  /-- Behind the loop of `pop`, with the mutex. -/
  | taking
  | working (task : E)
  | exited
  deriving DecidableEq

/-- Where `stop` is. -/
inductive Stopper where
  /-- It was not called. -/
  | idle
  | polling
  /-- The queue was empty, and `_isExit` is set next. -/
  | exiting
  /-- In `wakeup`, before `_flag` is cleared. -/
  | clearing
  /-- Before the broadcast. -/
  | broadcasting
  | joining
  | returned
  deriving DecidableEq

/-- The worker has the mutex. -/
def Worker.holds {E : Type v} : Worker E → Bool
  | checking => true
  | waiting => true
  | taking => true
  | _ => false

def Worker.sleeps {E : Type v} : Worker E → Bool
  | asleep => true
  | _ => false

def Worker.hasExited {E : Type v} : Worker E → Bool
  | exited => true
  | _ => false

/-- A broadcast or a signal reaches those that sleep. -/
def Worker.wakeUp {E : Type v} : Worker E → Worker E
  | asleep => woken
  | t => t

/-- `stop` has set `_isExit`. -/
def Stopper.exits : Stopper → Bool
  | clearing => true
  | broadcasting => true
  | joining => true
  | returned => true
  | _ => false

/-- `wakeup` has cleared `_flag`. -/
def Stopper.cleared : Stopper → Bool
  | broadcasting => true
  | joining => true
  | returned => true
  | _ => false

/-- `wakeup` has finished. -/
def Stopper.finished : Stopper → Bool
  | joining => true
  | returned => true
  | _ => false

theorem Stopper.cleared_of_finished {t : Stopper} (h : t.finished = true) : t.cleared = true := by
  cases t with
  | joining => rfl
  | returned => rfl
  | _ => cases h

end ThreadPool

/-- The pool: its queue with the mutex and the flag, and where its threads are. -/
structure ThreadPool (W : Type u) (E : Type v) where
  queSize : Nat
  que : List E
  holder : Option W
  flag : Bool
  isExit : Bool
  workers : W → ThreadPool.Worker E
  stopper : ThreadPool.Stopper

namespace ThreadPool

variable {W : Type u} {E : Type v} [DecidableEq W]

/-- The pool behind `start`. -/
def start (queSize : Nat) : ThreadPool W E :=
  { queSize := queSize, que := [], holder := none, flag := true, isExit := false,
    workers := fun _ => .testing, stopper := .idle }

/-- A worker moves, and has the mutex or has it not. -/
def move (s : ThreadPool W E) (w : W) (worker : Worker E) (holder : Option W) : ThreadPool W E :=
  { s with workers := Function.update s.workers w worker, holder := holder }

/-- What happens at the pool: a worker takes a step, a waiting worker wakes without a signal, a task
is pushed, or `stop` takes a step. -/
inductive Action (W : Type u) (E : Type v) where
  | test (w : W)
  | lock (w : W)
  | check (w : W)
  | sleep (w : W)
  | take (w : W)
  | finish (w : W)
  | spurious (w : W)
  | push (task : E) (woken : Finset W)
  | stop
  | poll
  | exit
  | clear
  | broadcast
  | join
  deriving DecidableEq

/-- `pop` behind its loop: the first task is taken, or there is none behind `wakeup`. -/
def takeTask (s : ThreadPool W E) (w : W) : Except Run.Disabled (ThreadPool W E) :=
  if s.flag then
    match s.que with
    -- not here: the queue is not empty
    | [] => .error .disabled
    | task :: que => .ok { s.move w (.working task) none with que := que }
  else .ok (s.move w .testing none)

variable [Fintype W]

/-- One step. A producer that waits for room has not got the mutex, and its `push` is the step that it
takes when there is room. -/
def step (s : ThreadPool W E) : Action W E → Except Run.Disabled (ThreadPool W E)
  | .test w =>
    match s.workers w with
    | .testing => .ok (s.move w (if s.isExit then .exited else .entering) s.holder)
    | _ => .error .disabled
  | .lock w =>
    match s.holder, s.workers w with
    | none, .entering => .ok (s.move w .checking (some w))
    | none, .woken => .ok (s.move w .checking (some w))
    | _, _ => .error .disabled
  | .check w =>
    match s.workers w with
    | .checking => .ok (s.move w (if s.que.isEmpty && s.flag then .waiting else .taking) s.holder)
    | _ => .error .disabled
  | .sleep w =>
    match s.workers w with
    | .waiting => .ok (s.move w .asleep none)
    | _ => .error .disabled
  | .take w =>
    match s.workers w with
    | .taking => s.takeTask w
    | _ => .error .disabled
  | .finish w =>
    match s.workers w with
    | .working _ => .ok (s.move w .testing s.holder)
    | _ => .error .disabled
  | .spurious w =>
    match s.workers w with
    | .asleep => .ok (s.move w .woken s.holder)
    | _ => .error .disabled
  | .push task woken =>
    if s.holder.isNone ∧ s.que.length ≠ s.queSize ∧
        Signals (fun t => t.sleeps = true) s.workers woken then
      .ok { s with que := s.que ++ [task], workers := wake s.workers woken Worker.wakeUp }
    else .error .disabled
  | .stop => if s.stopper = .idle then .ok { s with stopper := .polling } else .error .disabled
  | .poll =>
    if s.stopper = .polling then
      .ok { s with stopper := if s.que.isEmpty then .exiting else .polling }
    else .error .disabled
  | .exit =>
    if s.stopper = .exiting then .ok { s with isExit := true, stopper := .clearing }
    else .error .disabled
  | .clear =>
    if s.stopper = .clearing then .ok { s with flag := false, stopper := .broadcasting }
    else .error .disabled
  | .broadcast =>
    if s.stopper = .broadcasting then
      .ok { s with workers := fun w => (s.workers w).wakeUp, stopper := .joining }
    else .error .disabled
  | .join =>
    if s.stopper = .joining ∧ ∀ w, (s.workers w).hasExited = true then
      .ok { s with stopper := .returned }
    else .error .disabled

/-- No broadcast is made while a worker is between its check and its wait. -/
def NoneBetween (s : ThreadPool W E) (a : Action W E) : Prop :=
  a = .broadcast → ∀ w, s.workers w ≠ .waiting

instance [DecidableEq E] (s : ThreadPool W E) (a : Action W E) : Decidable (NoneBetween s a) :=
  inferInstanceAs (Decidable (_ → _))

/-! ## The invariant -/

/-- The flags are as `stop` left them, who has the mutex is where it needs it, and behind `wakeup`
nobody waits or goes to. -/
structure Sound (s : ThreadPool W E) : Prop where
  isExit : s.stopper.exits = true → s.isExit = true
  flag : s.stopper.cleared = true → s.flag = false
  holder : ∀ w, s.holder = some w → (s.workers w).holds = true
  awake : s.stopper.finished = true → ∀ w, s.workers w ≠ .asleep ∧ s.workers w ≠ .waiting

omit [DecidableEq W] [Fintype W] in
theorem sound_start (queSize : Nat) : Sound (start queSize : ThreadPool W E) where
  isExit := fun h => nomatch h
  flag := fun h => nomatch h
  holder := fun _ h => nomatch h
  awake := fun h => nomatch h

omit [Fintype W] in
/-- A step of a worker keeps the invariant, when the worker gets the mutex for a place that needs it,
or lets it go, or had it and needs it as before; and when it does not go to sleep behind `wakeup`. -/
theorem Sound.move {s : ThreadPool W E} (h : Sound s) {w : W} {worker : Worker E} {holder : Option W}
    {que : List E}
    (hholder : holder = none ∨ holder = some w ∧ worker.holds = true ∨
      holder = s.holder ∧ ((s.workers w).holds = false ∨ worker.holds = true))
    (hawake : s.stopper.finished = true → worker ≠ .asleep ∧ worker ≠ .waiting) :
    Sound { s.move w worker holder with que := que } where
  isExit := h.isExit
  flag := h.flag
  holder := by
    intro w' hw'
    show (Function.update s.workers w worker w').holds = true
    by_cases hsame : w' = w
    · subst hsame
      rw [Function.update_self]
      rcases hholder with hnone | ⟨-, hholds⟩ | ⟨hold, hholds⟩
      · exact nomatch hnone.symm.trans hw'
      · exact hholds
      · have hheld := h.holder w' (hold.symm.trans hw')
        exact hholds.resolve_left (Bool.not_eq_false _ ▸ hheld)
    · rw [Function.update_of_ne hsame]
      rcases hholder with hnone | ⟨hsome, -⟩ | ⟨hold, -⟩
      · exact nomatch hnone.symm.trans hw'
      · exact absurd (Option.some.inj (hsome.symm.trans hw')).symm hsame
      · exact h.holder w' (hold.symm.trans hw')
  awake := by
    intro hfinished w'
    show Function.update s.workers w worker w' ≠ _ ∧ Function.update s.workers w worker w' ≠ _
    by_cases hsame : w' = w
    · subst hsame
      rw [Function.update_self]
      exact hawake hfinished
    · rw [Function.update_of_ne hsame]
      exact h.awake hfinished w'

omit [Fintype W] in
/-- Behind its loop a worker leaves `pop` with the mutex released. -/
theorem Sound.takeTask {s s' : ThreadPool W E} (h : Sound s) {w : W} (htake : s.takeTask w = .ok s') :
    Sound s' := by
  unfold ThreadPool.takeTask at htake
  split at htake
  · split at htake
    · cases htake
    · obtain rfl := Except.ok.inj htake
      exact h.move (.inl rfl) fun _ => by simp
  · obtain rfl := Except.ok.inj htake
    exact h.move (.inl rfl) fun _ => by simp

omit [DecidableEq W] [Fintype W] in
/-- A step of `stop` before `wakeup` has finished keeps the invariant, when the flags are set by then. -/
theorem Sound.stopping {s : ThreadPool W E} (h : Sound s) {isExit flag : Bool} {stopper : Stopper}
    (hexit : stopper.exits = false ∨ isExit = true) (hflag : stopper.cleared = false ∨ flag = false)
    (hfinished : stopper.finished = false) :
    Sound { s with isExit := isExit, flag := flag, stopper := stopper } where
  isExit := fun hexits => hexit.resolve_left (Bool.not_eq_false _ ▸ hexits)
  flag := fun hcleared => hflag.resolve_left (Bool.not_eq_false _ ▸ hcleared)
  holder := h.holder
  awake := fun htrue => absurd (hfinished.symm.trans htrue) Bool.false_ne_true

omit [DecidableEq W] [Fintype W] in
/-- The broadcast wakes those that sleep, and nobody was about to. -/
theorem Sound.broadcast {s : ThreadPool W E} (h : Sound s) (hstopper : s.stopper = .broadcasting)
    (hbetween : ∀ w, s.workers w ≠ .waiting) :
    Sound { s with workers := fun w => (s.workers w).wakeUp, stopper := .joining } where
  isExit := fun _ => h.isExit (by rw [hstopper]; rfl)
  flag := fun _ => h.flag (by rw [hstopper]; rfl)
  holder := by
    intro w hw
    have hholds := h.holder w hw
    show (s.workers w).wakeUp.holds = true
    cases hworker : s.workers w with
    | asleep =>
      rw [hworker] at hholds
      cases hholds
    | _ =>
      rw [hworker] at hholds
      exact hholds
  awake := by
    intro _ w
    show (s.workers w).wakeUp ≠ _ ∧ (s.workers w).wakeUp ≠ _
    cases hworker : s.workers w with
    | waiting => exact absurd hworker (hbetween w)
    | _ => exact ⟨by simp [Worker.wakeUp], by simp [Worker.wakeUp]⟩

omit [Fintype W] in
/-- A push wakes sleepers only, so behind `wakeup` it wakes nobody. -/
theorem Sound.push {s : ThreadPool W E} (h : Sound s) (hnone : s.holder.isNone) {woken : Finset W}
    (hsignal : Signals (fun t => t.sleeps = true) s.workers woken) {task : E} :
    Sound { s with que := s.que ++ [task], workers := wake s.workers woken Worker.wakeUp } where
  isExit := h.isExit
  flag := h.flag
  holder := by
    intro w hw
    rw [Option.isNone_iff_eq_none.mp hnone] at hw
    cases hw
  awake := by
    intro hfinished w
    have hmem : w ∉ woken := by
      intro hmem
      have hsleeps := hsignal.1 w hmem
      cases hworker : s.workers w with
      | asleep => exact (h.awake hfinished w).1 hworker
      | _ =>
        rw [hworker] at hsleeps
        cases hsleeps
    show wake _ _ _ w ≠ _ ∧ wake _ _ _ w ≠ _
    rw [wake_of_notMem hmem]
    exact h.awake hfinished w

omit [DecidableEq W] [Fintype W] in
/-- The return from the joins changes nothing but where `stop` is. -/
theorem Sound.joined {s : ThreadPool W E} (h : Sound s) (hstopper : s.stopper = .joining) :
    Sound { s with stopper := .returned } where
  isExit := fun _ => h.isExit (by rw [hstopper]; rfl)
  flag := fun _ => h.flag (by rw [hstopper]; rfl)
  holder := h.holder
  awake := fun _ => h.awake (by rw [hstopper]; rfl)

/-- **A step keeps the invariant**, unless it is a broadcast past a worker between its check and its
wait. -/
theorem Sound.step {s s' : ThreadPool W E} {a : Action W E} (h : Sound s) (hcond : NoneBetween s a)
    (hstep : s.step a = .ok s') : Sound s' := by
  cases a with
  | test w =>
    simp only [ThreadPool.step] at hstep
    split at hstep
    · next hworker =>
      obtain rfl := Except.ok.inj hstep
      refine h.move (.inr (.inr ⟨rfl, .inl ?_⟩)) fun _ => ?_
      · rw [hworker]
        rfl
      · split
        · simp
        · simp
    · cases hstep
  | lock w =>
    simp only [ThreadPool.step] at hstep
    split at hstep
    · obtain rfl := Except.ok.inj hstep
      exact h.move (.inr (.inl ⟨rfl, rfl⟩)) fun _ => by simp
    · obtain rfl := Except.ok.inj hstep
      exact h.move (.inr (.inl ⟨rfl, rfl⟩)) fun _ => by simp
    · cases hstep
  | check w =>
    simp only [ThreadPool.step] at hstep
    split at hstep
    · obtain rfl := Except.ok.inj hstep
      refine h.move (.inr (.inr ⟨rfl, .inr ?_⟩)) fun hfinished => ?_
      · split
        · rfl
        · rfl
      · -- behind `wakeup` the flag is cleared, and the check fails
        have hflag : s.flag = false := h.flag (Stopper.cleared_of_finished hfinished)
        rw [hflag, Bool.and_false, if_neg Bool.false_ne_true]
        simp
    · cases hstep
  | sleep w =>
    simp only [ThreadPool.step] at hstep
    split at hstep
    · next hworker =>
      obtain rfl := Except.ok.inj hstep
      exact h.move (.inl rfl) fun hfinished => absurd hworker (h.awake hfinished w).2
    · cases hstep
  | take w =>
    simp only [ThreadPool.step] at hstep
    split at hstep
    · exact h.takeTask hstep
    · cases hstep
  | finish w =>
    simp only [ThreadPool.step] at hstep
    split at hstep
    · next hworker =>
      obtain rfl := Except.ok.inj hstep
      refine h.move (.inr (.inr ⟨rfl, .inl ?_⟩)) fun _ => by simp
      rw [hworker]
      rfl
    · cases hstep
  | spurious w =>
    simp only [ThreadPool.step] at hstep
    split at hstep
    · next hworker =>
      obtain rfl := Except.ok.inj hstep
      refine h.move (.inr (.inr ⟨rfl, .inl ?_⟩)) fun _ => by simp
      rw [hworker]
      rfl
    · cases hstep
  | push task woken =>
    simp only [ThreadPool.step] at hstep
    split at hstep
    · next hpush =>
      obtain rfl := Except.ok.inj hstep
      exact h.push hpush.1 hpush.2.2
    · cases hstep
  | stop =>
    simp only [ThreadPool.step] at hstep
    split at hstep
    · obtain rfl := Except.ok.inj hstep
      exact h.stopping (.inl rfl) (.inl rfl) rfl
    · cases hstep
  | poll =>
    simp only [ThreadPool.step] at hstep
    split at hstep
    · obtain rfl := Except.ok.inj hstep
      split
      · exact h.stopping (.inl rfl) (.inl rfl) rfl
      · exact h.stopping (.inl rfl) (.inl rfl) rfl
    · cases hstep
  | exit =>
    simp only [ThreadPool.step] at hstep
    split at hstep
    · obtain rfl := Except.ok.inj hstep
      exact h.stopping (.inr rfl) (.inl rfl) rfl
    · cases hstep
  | clear =>
    simp only [ThreadPool.step] at hstep
    split at hstep
    · next hstopper =>
      obtain rfl := Except.ok.inj hstep
      exact h.stopping (.inr (h.isExit (by rw [hstopper]; rfl))) (.inr rfl) rfl
    · cases hstep
  | broadcast =>
    simp only [ThreadPool.step] at hstep
    split at hstep
    · next hstopper => exact Except.ok.inj hstep ▸ h.broadcast hstopper (hcond rfl)
    · cases hstep
  | join =>
    simp only [ThreadPool.step] at hstep
    split at hstep
    · next hstopper =>
      obtain rfl := Except.ok.inj hstep
      exact h.joined hstopper.1
    · cases hstep

/-! ## The way to the end -/

/-- How far a worker is from its end, when `wakeup` has finished. -/
def Worker.distance : Worker E → Nat
  | .exited => 0
  | .testing => 1
  | .working _ => 2
  | .taking => 2
  | .checking => 3
  | .entering => 4
  | .woken => 4
  | _ => 0

omit [DecidableEq W] in
/-- How far all workers are from their ends. -/
def distance (s : ThreadPool W E) : Nat := total Worker.distance s.workers

theorem distance_move {s : ThreadPool W E} {w : W} {worker : Worker E} {holder : Option W}
    (h : worker.distance < (s.workers w).distance) : (s.move w worker holder).distance < s.distance := by
  have htotal := total_update Worker.distance s.workers w worker
  show total _ (Function.update s.workers w worker) < total _ s.workers
  omega

/-- Who has the mutex when `wakeup` has finished comes nearer to its end. -/
theorem Sound.holder_goes_on {s : ThreadPool W E} (h : Sound s) (hjoining : s.stopper = .joining)
    {w : W} (hholds : (s.workers w).holds = true) :
    ∃ a s', s.step a = .ok s' ∧ s'.stopper = .joining ∧ s'.distance < s.distance := by
  have hflag : s.flag = false := h.flag (by rw [hjoining]; rfl)
  cases hworker : s.workers w with
  | checking =>
    refine ⟨.check w, s.move w .taking s.holder, ?_, hjoining, distance_move ?_⟩
    · simp only [ThreadPool.step, hworker, hflag, Bool.and_false, Bool.false_eq_true, ↓reduceIte]
    · simp only [hworker, Worker.distance, Nat.reduceLT]
  | taking =>
    refine ⟨.take w, s.move w .testing none, ?_, hjoining, distance_move ?_⟩
    · simp only [ThreadPool.step, hworker, ThreadPool.takeTask, hflag, Bool.false_eq_true, ↓reduceIte]
    · simp only [hworker, Worker.distance, Nat.reduceLT]
  | waiting => exact absurd hworker (h.awake (by rw [hjoining]; rfl) w).2
  | _ =>
    rw [hworker] at hholds
    cases hholds

/-- Who wants the mutex when `wakeup` has finished gets it, or another comes nearer to its end. -/
theorem Sound.mutex_goes_on {s : ThreadPool W E} (h : Sound s) (hjoining : s.stopper = .joining)
    {w : W} (hworker : s.workers w = .entering ∨ s.workers w = .woken) :
    ∃ a s', s.step a = .ok s' ∧ s'.stopper = .joining ∧ s'.distance < s.distance := by
  cases hholder : s.holder with
  | some w' => exact h.holder_goes_on hjoining (h.holder w' hholder)
  | none =>
    refine ⟨.lock w, s.move w .checking (some w), ?_, hjoining, distance_move ?_⟩
    · rcases hworker with hworker | hworker
      · simp only [ThreadPool.step, hholder, hworker]
      · simp only [ThreadPool.step, hholder, hworker]
    · rcases hworker with hworker | hworker
      · simp only [hworker, Worker.distance, Nat.reduceLT]
      · simp only [hworker, Worker.distance, Nat.reduceLT]

/-- While a worker has not come to its end, there is a step nearer to it. -/
theorem Sound.goes_on {s : ThreadPool W E} (h : Sound s) (hjoining : s.stopper = .joining) {w : W}
    (hw : ¬ (s.workers w).hasExited = true) :
    ∃ a s', s.step a = .ok s' ∧ s'.stopper = .joining ∧ s'.distance < s.distance := by
  have hawake := h.awake (by rw [hjoining]; rfl) w
  have hexit : s.isExit = true := h.isExit (by rw [hjoining]; rfl)
  cases hworker : s.workers w with
  | testing =>
    refine ⟨.test w, s.move w .exited s.holder, ?_, hjoining, distance_move ?_⟩
    · simp only [ThreadPool.step, hworker, hexit, ↓reduceIte]
    · simp only [hworker, Worker.distance, Nat.reduceLT]
  | working task =>
    refine ⟨.finish w, s.move w .testing s.holder, ?_, hjoining, distance_move ?_⟩
    · simp only [ThreadPool.step, hworker]
    · simp only [hworker, Worker.distance, Nat.reduceLT]
  | entering => exact h.mutex_goes_on hjoining (.inl hworker)
  | woken => exact h.mutex_goes_on hjoining (.inr hworker)
  | checking => exact h.holder_goes_on hjoining (by rw [hworker]; rfl)
  | taking => exact h.holder_goes_on hjoining (by rw [hworker]; rfl)
  | asleep => exact absurd hworker hawake.1
  | waiting => exact absurd hworker hawake.2
  | exited =>
    rw [hworker] at hw
    exact absurd rfl hw

/-- **The joins can return**: all workers come to their ends, and then `stop` does. -/
theorem Sound.returns {s : ThreadPool W E} (h : Sound s) (hjoining : s.stopper = .joining) :
    ∃ more s', Run.run ThreadPool.step s more = .ok s' ∧ s'.stopper = .returned := by
  induction hdistance : s.distance using Nat.strong_induction_on generalizing s with
  | _ n ih =>
    by_cases hall : ∀ w, (s.workers w).hasExited = true
    · refine ⟨[.join], { s with stopper := .returned }, ?_, rfl⟩
      rw [Run.run_cons]
      simp only [ThreadPool.step, hjoining, hall, implies_true, and_self, ↓reduceIte, Except.ok_bind, Run.run_nil]
    · obtain ⟨w, hw⟩ := not_forall.mp hall
      obtain ⟨a, s₁, hstep, hjoining₁, hless⟩ := h.goes_on hjoining hw
      have hcond : NoneBetween s a := by
        rintro rfl
        simp only [ThreadPool.step, hjoining, reduceCtorEq, ↓reduceIte] at hstep
      obtain ⟨more, s', hrun, hreturned⟩ :=
        ih s₁.distance (hdistance ▸ hless) (h.step hcond hstep) hjoining₁ rfl
      exact ⟨a :: more, s', by rw [Run.run_cons, hstep, Except.ok_bind, hrun], hreturned⟩

/-! ## Runs -/

/-- In every state behind these steps where `wakeup` has finished, and in every state that such a
state leads to, no worker sleeps without a signal on its way. -/
def StrandsNone (first : ThreadPool W E) (actions : List (Action W E)) : Prop :=
  ∀ before more s₁ s₂, before <+: actions → Run.run step first before = .ok s₁ →
    s₁.stopper.finished = true → Run.run step s₁ more = .ok s₂ → ∀ w, s₂.workers w ≠ .asleep

/-- Behind `wakeup` there is no other broadcast. -/
theorem finished_step {s s' : ThreadPool W E} {a : Action W E} (hfinished : s.stopper.finished = true)
    (hstep : s.step a = .ok s') : NoneBetween s a ∧ s'.stopper.finished = true := by
  constructor
  · rintro rfl
    simp only [step] at hstep
    split at hstep
    · next hstopper =>
      rw [hstopper] at hfinished
      cases hfinished
    · cases hstep
  · cases a <;> grind [step, takeTask, move, Stopper.finished]

theorem strandsNone_of_meets {first : ThreadPool W E} (hfirst : Sound first)
    {actions : List (Action W E)} (hmeets : Run.Meets step NoneBetween first actions) :
    StrandsNone first actions := by
  intro before more s₁ s₂ hbefore hrun hfinished hmore
  have h₁ : Sound s₁ :=
    Run.run_keeps_meets Sound (fun _ _ _ hs ha hstep => hs.step ha hstep) hfirst
      (hmeets.of_prefix hbefore) hrun
  obtain ⟨h₂, hfinished₂⟩ :=
    Run.run_keeps (fun s => Sound s ∧ s.stopper.finished = true)
      (fun s a s' hs hstep =>
        have ⟨ha, hs'⟩ := finished_step hs.2 hstep
        ⟨hs.1.step ha hstep, hs'⟩)
      ⟨h₁, hfinished⟩ hmore
  exact fun w => (h₂.awake hfinished₂ w).1

/-- A broadcast past a worker between its check and its wait leaves it to sleep. -/
theorem meets_of_strandsNone {first last : ThreadPool W E} {actions : List (Action W E)}
    (hrun : Run.run step first actions = .ok last) (hnone : StrandsNone first actions) :
    Run.Meets step NoneBetween first actions := by
  apply Run.meets_iff.mpr
  rintro before a after s rfl hbefore rfl w hworker
  rw [Run.run_append, hbefore, Except.ok_bind, Run.run_cons] at hrun
  obtain ⟨s₁, hstep, -⟩ := Except.bind_eq_ok.mp hrun
  have hrun₁ : Run.run step first (before ++ [.broadcast]) = .ok s₁ := by
    rw [Run.run_append, hbefore, Except.ok_bind, Run.run_cons, hstep]
    rfl
  simp only [step] at hstep
  split at hstep
  · have hs₁ := Except.ok.inj hstep
    have hfinished : s₁.stopper.finished = true := by
      rw [← hs₁]
      rfl
    have hworker₁ : s₁.workers w = .waiting := by
      rw [← hs₁]
      show (s.workers w).wakeUp = _
      rw [hworker]
      rfl
    have hsleep : Run.run step s₁ [.sleep w] = .ok (s₁.move w .asleep none) := by
      rw [Run.run_cons]
      simp only [step, hworker₁]
      rfl
    have hbegins : before ++ [.broadcast] <+: before ++ .broadcast :: after :=
      ⟨after, List.append_assoc _ _ _⟩
    exact hnone _ _ _ _ hbegins hrun₁ hfinished hsleep w (Function.update_self _ _ _)
  · cases hstep

/-- **No worker is stranded** in a run of the pool just when each broadcast of the run is made while no
worker is between its check and its wait. Then the joins that `stop` goes on to can return. -/
theorem stop_strands_iff {queSize : Nat} {actions : List (Action W E)} {s : ThreadPool W E}
    (hrun : Run.run step (start queSize) actions = .ok s) :
    (StrandsNone (start queSize) actions ↔ Run.Meets step NoneBetween (start queSize) actions) ∧
      (Run.Meets step NoneBetween (start queSize) actions → s.stopper = .joining →
        ∃ more s', Run.run step s more = .ok s' ∧ s'.stopper = .returned) := by
  refine ⟨⟨meets_of_strandsNone hrun, strandsNone_of_meets (sound_start queSize)⟩,
    fun hmeets hjoining => ?_⟩
  have hsound : Sound s :=
    Run.run_keeps_meets Sound (fun _ _ _ hs ha hstep => hs.step ha hstep) (sound_start queSize)
      hmeets hrun
  exact hsound.returns hjoining

/-- Two workers: one sleeps and one has taken a task when `stop` is called. -/
theorem stop_strands_iff_two :
    let first : ThreadPool (Fin 2) Nat := start 4
    let actions : List (Action (Fin 2) Nat) :=
      [.test 0, .lock 0, .check 0, .sleep 0, .push 7 {0}, .test 1, .lock 1, .check 1, .take 1, .lock 0,
        .check 0, .sleep 0, .stop, .poll, .exit, .finish 1, .clear, .broadcast]
    ∃ s, (Run.run step first actions = .ok s ∧ s.stopper = .joining) ∧ StrandsNone first actions ∧
      ∃ more s', Run.run step s more = .ok s' ∧ s'.stopper = .returned := by
  intro first actions
  obtain ⟨s, hrun, hend⟩ := Except.exists_of_check
    (show (Run.run step first actions).check (fun s => s.stopper = .joining) = true by
      decide)
  have hjoining : s.stopper = .joining := of_decide_eq_true hend
  have hmeets : Run.Meets step NoneBetween first actions := by decide
  have hpool := stop_strands_iff hrun
  exact ⟨s, ⟨hrun, hjoining⟩, hpool.1.mpr hmeets, hpool.2 hmeets hjoining⟩

/-- A worker has found the queue empty when `wakeup` clears the flag and broadcasts, and goes to sleep
then. -/
theorem stop_strands_one :
    ¬ ∀ (actions : List (Action (Fin 1) Nat)) s, Run.run step (start 4) actions = .ok s →
      s.stopper.finished = true → ∀ w, s.workers w ≠ .asleep := by
  intro h
  obtain ⟨s, hrun, hend⟩ := Except.exists_of_check
    (show (Run.run step (start 4 : ThreadPool (Fin 1) Nat)
      [.test 0, .lock 0, .check 0, .stop, .poll, .exit, .clear, .broadcast, .sleep 0]).check
        (fun s => s.stopper.finished = true ∧ s.workers 0 = .asleep) = true by decide)
  obtain ⟨hfinished, hasleep⟩ := of_decide_eq_true hend
  exact h _ s hrun hfinished 0 hasleep

end ThreadPool

end LightSearch
