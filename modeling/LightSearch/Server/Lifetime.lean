import LightSearch.Server.EventLoop

/-!
# The life of a connection

A functor in `_pengdings` holds a bare `this`. The connection has other owners, and each of them can
go before the functor runs: the entry in `_conns` goes when the peer closes, and the task object when
the worker is done. When the last one goes first, the functor runs on freed memory.

`Safe` is the condition on the two steps that let go of a connection: it has no functor to run, or
another owner. Runs of safe steps never touch a connection that is gone, and a run that comes to the
end of its functors was safe at each step (`lives_until_sent`).
-/

set_option autoImplicit false
set_option linter.unusedSectionVars false

universe u

namespace LightSearch

open Cxx

namespace EventLoop

variable {W : Type u} [DecidableEq W] [Fintype W]

/-- A functor bound to the connection has yet to run. -/
def Bound (s : EventLoop W) (con : Nat) : Prop := con ∈ (s.tmp ++ s.pengdings).map Pending.con

/-- A connection that the step lets go of has no functor to run, or another owner. -/
def Safe (s : EventLoop W) : Action W → Prop
  | .close fd => ∀ con, s.conns.lookup fd = some con → s.Bound con →
      con ∈ s.tasks.map Task.con ∨ ∃ w, con ∈ (s.workers w).task.map Task.con
  | .release w => ∀ t, s.workers w = .finished t → s.Bound t.con →
      t.con ∈ s.conns.map Prod.snd ∨ t.con ∈ s.tasks.map Task.con ∨
        ∃ v, v ≠ w ∧ t.con ∈ (s.workers v).task.map Task.con
  | _ => True

/-! ## What a step does to the owners -/

/-- A worker that keeps its task keeps its connection. -/
theorem owns_keep {f : W → Worker} {w : W} {t : Worker} (ht : t.task = (f w).task) (con : Nat) :
    (∃ v, con ∈ (Function.update f w t v).task.map Task.con) ↔
      ∃ v, con ∈ (f v).task.map Task.con := by
  have hsame : ∀ v, (Function.update f w t v).task = (f v).task := by
    intro v
    by_cases hv : v = w
    · subst hv
      rw [Function.update_self, ht]
    · rw [Function.update_of_ne hv]
  simp only [hsame]

/-- A worker without a task gets one. -/
theorem owns_take {f : W → Worker} {w : W} (hw : (f w).task = none) (t : Task) (con : Nat) :
    (∃ v, con ∈ (Function.update f w (.working t) v).task.map Task.con) ↔
      t.con = con ∨ ∃ v, con ∈ (f v).task.map Task.con := by
  constructor
  · rintro ⟨v, hv⟩
    by_cases hvw : v = w
    · subst hvw
      rw [Function.update_self] at hv
      exact .inl (Option.some.inj hv)
    · rw [Function.update_of_ne hvw] at hv
      exact .inr ⟨v, hv⟩
  · rintro (hcon | ⟨v, hv⟩)
    · exact ⟨w, by rw [Function.update_self]; exact congrArg some hcon⟩
    · refine ⟨v, ?_⟩
      have hvw : v ≠ w := by
        rintro rfl
        rw [hw] at hv
        cases hv
      rwa [Function.update_of_ne hvw]

/-- A worker destroys its task: the others keep theirs. -/
theorem owns_drop {f : W → Worker} {w : W} (con : Nat) :
    (∃ v, con ∈ (Function.update f w .idle v).task.map Task.con) ↔
      ∃ v, v ≠ w ∧ con ∈ (f v).task.map Task.con := by
  constructor
  · rintro ⟨v, hv⟩
    by_cases hvw : v = w
    · subst hvw
      rw [Function.update_self] at hv
      cases hv
    · rw [Function.update_of_ne hvw] at hv
      exact ⟨v, hvw, hv⟩
  · rintro ⟨v, hvw, hv⟩
    exact ⟨v, by rwa [Function.update_of_ne hvw]⟩

/-- A task popped stays the owner of its connection. -/
theorem alive_pop {s : EventLoop W} {w : W} {t : Task} {tasks : List Task}
    (hidle : s.workers w = .idle) (htasks : s.tasks = t :: tasks) (con : Nat) :
    Alive { s with tasks := tasks, workers := Function.update s.workers w (.working t) } con ↔
      s.Alive con := by
  have hnone : (s.workers w).task = none := by rw [hidle]; rfl
  unfold Alive
  rw [owns_take hnone, htasks, List.map_cons, List.mem_cons]
  constructor
  · rintro (hconns | htask | rfl | hworker)
    · exact .inl hconns
    · exact .inr (.inl (.inr htask))
    · exact .inr (.inl (.inl rfl))
    · exact .inr (.inr hworker)
  · rintro (hconns | (rfl | htask) | hworker)
    · exact .inl hconns
    · exact .inr (.inr (.inl rfl))
    · exact .inr (.inl htask)
    · exact .inr (.inr (.inr hworker))

/-- The action may let go of a connection, or make one. -/
def Action.ChangesOwners : Action W → Prop
  | .accept _ => True
  | .close _ => True
  | .release _ => True
  | _ => False

/-- The other steps pass ownership on. -/
theorem alive_step {s s' : EventLoop W} {a : Action W} (ha : ¬ a.ChangesOwners)
    (hstep : s.step a = .ok s') (con : Nat) : s'.Alive con ↔ s.Alive con := by
  cases a with
  | accept fd => exact absurd trivial ha
  | close fd => exact absurd trivial ha
  | release w => exact absurd trivial ha
  | message fd msg =>
    obtain ⟨-, ⟨-, rfl⟩ | ⟨con', hlookup, -, rfl⟩⟩ := message_inv hstep
    · exact Iff.rfl
    · -- the task owns a connection that `_conns` owns
      have hconns := mem_of_lookup hlookup
      unfold Alive
      rw [List.map_append, List.mem_append, List.map_singleton, List.mem_singleton]
      constructor
      · rintro (hown | (htask | rfl) | hworker)
        · exact .inl hown
        · exact .inr (.inl htask)
        · exact .inl hconns
        · exact .inr (.inr hworker)
      · rintro (hown | htask | hworker)
        · exact .inl hown
        · exact .inr (.inl (.inl htask))
        · exact .inr (.inr hworker)
  | handleRead =>
    obtain ⟨-, -, rfl⟩ := handleRead_inv hstep
    exact Iff.rfl
  | swap =>
    obtain ⟨-, rfl⟩ := swap_inv hstep
    exact Iff.rfl
  | run =>
    obtain ⟨f, tmp, -, -, -, rfl⟩ := run_inv hstep
    exact Iff.rfl
  | leave =>
    obtain ⟨-, -, rfl⟩ := leave_inv hstep
    exact Iff.rfl
  | pop w =>
    obtain ⟨t, tasks, hidle, htasks, rfl⟩ := pop_inv hstep
    exact alive_pop hidle htasks con
  | append w reply =>
    obtain ⟨t, hw, rfl⟩ := append_inv hstep
    have htask : Worker.task (.writing t) = (s.workers w).task := by rw [hw]; rfl
    unfold Alive
    rw [owns_keep htask]
  | wakeup w =>
    obtain ⟨t, hw, -, rfl⟩ := wakeup_inv hstep
    have htask : Worker.task (.finished t) = (s.workers w).task := by rw [hw]; rfl
    unfold Alive
    rw [owns_keep htask]

/-- The steps that neither append a functor nor take one leave the functors to run as they are. -/
theorem step_functors {s s' : EventLoop W} {a : Action W} (hswap : a ≠ .swap) (hrun : a ≠ .run)
    (happend : ∀ w reply, a ≠ .append w reply) (hstep : s.step a = .ok s') :
    s'.tmp = s.tmp ∧ s'.pengdings = s.pengdings := by
  cases a with
  | accept fd =>
    obtain ⟨-, rfl⟩ := accept_inv hstep
    exact ⟨rfl, rfl⟩
  | message fd msg =>
    obtain ⟨-, ⟨-, rfl⟩ | ⟨con, -, -, rfl⟩⟩ := message_inv hstep
    · exact ⟨rfl, rfl⟩
    · exact ⟨rfl, rfl⟩
  | close fd =>
    obtain ⟨-, rfl⟩ := close_inv hstep
    exact ⟨rfl, rfl⟩
  | handleRead =>
    obtain ⟨-, -, rfl⟩ := handleRead_inv hstep
    exact ⟨rfl, rfl⟩
  | swap => exact absurd rfl hswap
  | run => exact absurd rfl hrun
  | leave =>
    obtain ⟨-, -, rfl⟩ := leave_inv hstep
    exact ⟨rfl, rfl⟩
  | pop w =>
    obtain ⟨t, tasks, -, -, rfl⟩ := pop_inv hstep
    exact ⟨rfl, rfl⟩
  | append w reply => exact absurd rfl (happend w reply)
  | wakeup w =>
    obtain ⟨t, -, -, rfl⟩ := wakeup_inv hstep
    exact ⟨rfl, rfl⟩
  | release w =>
    obtain ⟨t, -, rfl⟩ := release_inv hstep
    exact ⟨rfl, rfl⟩

/-- A functor that is new after a step is bound to a connection that is alive. -/
theorem bound_before {s s' : EventLoop W} {a : Action W} (hstep : s.step a = .ok s') {con : Nat}
    (hbound : s'.Bound con) : s.Bound con ∨ s.Alive con ∧ ¬ a.ChangesOwners := by
  unfold Bound at hbound ⊢
  cases a with
  | swap =>
    obtain ⟨-, rfl⟩ := swap_inv hstep
    rw [List.append_nil] at hbound
    rw [List.map_append]
    exact .inl (List.mem_append_right _ hbound)
  | run =>
    obtain ⟨f, tmp, -, htmp, -, rfl⟩ := run_inv hstep
    rw [htmp]
    exact .inl (List.mem_cons_of_mem _ hbound)
  | append w reply =>
    obtain ⟨t, hw, rfl⟩ := append_inv hstep
    rw [← List.append_assoc, List.map_append] at hbound
    rcases List.mem_append.mp hbound with hbefore | hnew
    · exact .inl hbefore
    · obtain rfl := List.mem_singleton.mp hnew
      exact .inr ⟨.inr (.inr ⟨w, by rw [hw]; rfl⟩), id⟩
  | _ =>
    obtain ⟨htmp, hpengdings⟩ := step_functors (by rintro ⟨⟩) (by rintro ⟨⟩) (by rintro _ _ ⟨⟩) hstep
    rw [htmp, hpengdings] at hbound
    exact .inl hbound

/-- A functor on a connection that is gone does not run in a step. -/
theorem bound_after {s s' : EventLoop W} (hs : s.Conserved) {a : Action W}
    (hstep : s.step a = .ok s') {con : Nat} (hbound : s.Bound con) (hdead : ¬ s.Alive con) :
    s'.Bound con := by
  unfold Bound at hbound ⊢
  cases a with
  | swap =>
    obtain ⟨hloop, rfl⟩ := swap_inv hstep
    have htmp : s.tmp = [] := hs.tmp (by rw [hloop]; exact Loop.noConfusion)
    rw [htmp] at hbound
    rw [List.append_nil]
    exact hbound
  | run =>
    obtain ⟨f, tmp, -, htmp, halive, rfl⟩ := run_inv hstep
    rw [htmp] at hbound
    rcases List.mem_cons.mp hbound with rfl | hrest
    · exact absurd halive hdead
    · exact hrest
  | append w reply =>
    obtain ⟨t, -, rfl⟩ := append_inv hstep
    rw [← List.append_assoc, List.map_append]
    exact List.mem_append_left _ hbound
  | _ =>
    obtain ⟨htmp, hpengdings⟩ := step_functors (by rintro ⟨⟩) (by rintro ⟨⟩) (by rintro _ _ ⟨⟩) hstep
    rw [htmp, hpengdings]
    exact hbound

/-! ## Safe steps -/

/-- The keys of `_conns` and the connections in it are all different, and a connection is a number
given out before. -/
structure Numbered (s : EventLoop W) : Prop where
  keys : (s.conns.map Prod.fst).Nodup
  objects : (s.conns.map Prod.snd).Nodup
  conns : ∀ con ∈ s.conns.map Prod.snd, con < s.accepted
  received : ∀ e ∈ s.received, e.1 < s.accepted

theorem numbered_start (queSize : Nat) : Numbered (start queSize : EventLoop W) where
  keys := List.nodup_nil
  objects := List.nodup_nil
  conns := fun _ h => absurd h List.not_mem_nil
  received := fun _ h => absurd h List.not_mem_nil

theorem Numbered.step {s s' : EventLoop W} (h : s.Numbered) {a : Action W}
    (hstep : s.step a = .ok s') : s'.Numbered := by
  cases a with
  | accept fd =>
    obtain ⟨-, rfl⟩ := accept_inv hstep
    have hold : ∀ e ∈ s.received, e.1 < s.accepted + 1 := fun e he => (h.received e he).trans_le
      (Nat.le_succ _)
    split
    · exact ⟨h.keys, h.objects, fun con hcon => (h.conns con hcon).trans_le (Nat.le_succ _), hold⟩
    · next hfresh =>
      have hnew : s.accepted ∉ s.conns.map Prod.snd := fun hmem => Nat.lt_irrefl _ (h.conns _ hmem)
      refine ⟨?_, ?_, fun con hcon => ?_, hold⟩
      · rw [List.map_append]
        exact h.keys.append (List.nodup_singleton fd)
          (List.disjoint_singleton.mpr hfresh)
      · rw [List.map_append]
        exact h.objects.append (List.nodup_singleton s.accepted)
          (List.disjoint_singleton.mpr hnew)
      · rw [List.map_append] at hcon
        rcases List.mem_append.mp hcon with hbefore | hlast
        · exact (h.conns con hbefore).trans_le (Nat.le_succ _)
        · obtain rfl := List.mem_singleton.mp hlast
          exact Nat.lt_succ_self _
  | message fd msg =>
    obtain ⟨-, ⟨-, rfl⟩ | ⟨con, hlookup, -, rfl⟩⟩ := message_inv hstep
    · exact h
    · refine ⟨h.keys, h.objects, h.conns, fun e he => ?_⟩
      rcases List.mem_append.mp he with hbefore | hnew
      · exact h.received e hbefore
      · obtain rfl := List.mem_singleton.mp hnew
        exact h.conns con (mem_of_lookup hlookup)
  | close fd =>
    obtain ⟨-, rfl⟩ := close_inv hstep
    have hsub : (s.conns.filter fun e => e.1 ≠ fd).Sublist s.conns := List.filter_sublist
    exact ⟨h.keys.sublist (hsub.map _), h.objects.sublist (hsub.map _),
      fun con hcon => h.conns con ((hsub.map _).subset hcon), h.received⟩
  | _ =>
    obtain ⟨hconns, haccepted, hreceived⟩ := step_conns id hstep
    refine ⟨?_, ?_, ?_, ?_⟩
    · rw [hconns]; exact h.keys
    · rw [hconns]; exact h.objects
    · rw [hconns, haccepted]; exact h.conns
    · rw [hreceived, haccepted]; exact h.received

/-- The entry of a key is the one that `find` gets. -/
theorem Numbered.lookup {s : EventLoop W} (h : s.Numbered) {e : Nat × Nat} (he : e ∈ s.conns) :
    s.conns.lookup e.1 = some e.2 := by
  obtain ⟨l₁, l₂, hsplit⟩ := List.append_of_mem he
  have hkeys := h.keys
  rw [hsplit, List.map_append, List.map_cons] at hkeys
  refine List.lookup_eq_some_iff.mpr ⟨l₁, l₂, hsplit, fun p hp => ?_⟩
  have hne : p.1 ≠ e.1 := (List.nodup_append.mp hkeys).2.2 p.1 (List.mem_map.mpr ⟨p, hp, rfl⟩) e.1
    List.mem_cons_self
  exact bne_iff_ne.mpr hne.symm

/-- Every connection with a functor to run is alive. -/
def Reachable (s : EventLoop W) : Prop := ∀ con, s.Bound con → s.Alive con

/-- **A safe step keeps the connections of the functors alive.** -/
theorem Reachable.step {s s' : EventLoop W} (hs : s.Numbered) (h : s.Reachable) {a : Action W}
    (hsafe : Safe s a) (hstep : s.step a = .ok s') : s'.Reachable := by
  intro con hbound
  have halive : s.Alive con := by
    rcases bound_before hstep hbound with hbefore | ⟨halive, -⟩
    · exact h con hbefore
    · exact halive
  cases a with
  | accept fd =>
    obtain ⟨-, rfl⟩ := accept_inv hstep
    refine halive.imp (fun hconns => ?_) id
    split
    · exact hconns
    · rw [List.map_append]
      exact List.mem_append_left _ hconns
  | close fd =>
    obtain ⟨-, rfl⟩ := close_inv hstep
    rcases halive with hconns | hother
    · obtain ⟨e, he, rfl⟩ := List.mem_map.mp hconns
      by_cases hfd : e.1 = fd
      · -- the entry goes: the condition gives another owner
        exact .inr (hsafe e.2 (hfd ▸ hs.lookup he) hbound)
      · exact .inl (List.mem_map.mpr ⟨e, List.mem_filter.mpr ⟨he, decide_eq_true hfd⟩, rfl⟩)
    · exact .inr hother
  | release w =>
    obtain ⟨t, hw, rfl⟩ := release_inv hstep
    unfold Alive
    rw [owns_drop]
    rcases halive with hconns | htask | ⟨v, hv⟩
    · exact .inl hconns
    · exact .inr (.inl htask)
    · by_cases hvw : v = w
      · -- the task goes: the condition gives another owner
        subst hvw
        rw [hw] at hv
        obtain rfl := Option.some.inj hv
        exact hsafe t hw hbound
      · exact .inr (.inr ⟨v, hvw, hv⟩)
  | _ => exact (alive_step id hstep con).mpr halive

/-! ## Unsafe steps -/

/-- A functor has yet to run on a connection that is gone. -/
def Doomed (s : EventLoop W) : Prop := ∃ con, con < s.accepted ∧ s.Bound con ∧ ¬ s.Alive con

/-- A connection that is gone stays gone, and so does the functor stay. -/
theorem Doomed.step {s s' : EventLoop W} (hs : s.Conserved) (h : s.Doomed) {a : Action W}
    (hstep : s.step a = .ok s') : s'.Doomed := by
  obtain ⟨con, hcon, hbound, hdead⟩ := h
  have hbound' := bound_after hs hstep hbound hdead
  cases a with
  | accept fd =>
    obtain ⟨-, rfl⟩ := accept_inv hstep
    refine ⟨con, hcon.trans_le (Nat.le_succ _), hbound', fun halive => hdead ?_⟩
    rcases halive with hconns | hother
    · refine .inl ?_
      dsimp only at hconns
      split at hconns
      · exact hconns
      · rw [List.map_append] at hconns
        rcases List.mem_append.mp hconns with hbefore | hnew
        · exact hbefore
        · -- the new object has a number of its own
          obtain rfl := List.mem_singleton.mp hnew
          exact absurd hcon (Nat.lt_irrefl _)
    · exact .inr hother
  | close fd =>
    obtain ⟨-, rfl⟩ := close_inv hstep
    refine ⟨con, hcon, hbound', fun halive => hdead (halive.imp (fun hconns => ?_) id)⟩
    exact ((List.filter_sublist).map _).subset hconns
  | release w =>
    obtain ⟨t, -, rfl⟩ := release_inv hstep
    refine ⟨con, hcon, hbound', fun halive => hdead ?_⟩
    unfold Alive at halive
    rw [owns_drop] at halive
    rcases halive with hconns | hqueue | ⟨v, -, hv⟩
    · exact .inl hconns
    · exact .inr (.inl hqueue)
    · exact .inr (.inr ⟨v, hv⟩)
  | message fd msg =>
    have halive := alive_step id hstep con
    refine ⟨con, ?_, hbound', fun h => hdead (halive.mp h)⟩
    obtain ⟨-, ⟨-, rfl⟩ | ⟨con', -, -, rfl⟩⟩ := message_inv hstep
    · exact hcon
    · exact hcon
  | _ =>
    obtain ⟨-, haccepted, -⟩ := step_conns id hstep
    exact ⟨con, haccepted ▸ hcon, hbound', fun h => hdead ((alive_step id hstep con).mp h)⟩

/-- A step against the condition takes the last owner of a connection with a functor to run. -/
theorem doomed_of_not_safe {s s' : EventLoop W} (hs : s.Numbered) (hconserved : s.Conserved)
    {a : Action W} (hsafe : ¬ Safe s a) (hstep : s.step a = .ok s') : s'.Doomed := by
  cases a with
  | close fd =>
    simp only [Safe, not_forall] at hsafe
    obtain ⟨con, hlookup, hbound, hother⟩ := hsafe
    have hentry := entry_of_lookup hlookup
    have hcon := hs.conns con (mem_of_lookup hlookup)
    obtain ⟨-, rfl⟩ := close_inv hstep
    refine ⟨con, hcon, hbound, fun halive => ?_⟩
    rcases halive with hconns | hrest
    · -- the connection has one entry only
      obtain ⟨e, he, hobject⟩ := List.mem_map.mp hconns
      obtain ⟨hmem, hfd⟩ := List.mem_filter.mp he
      obtain rfl := List.inj_on_of_nodup_map hs.objects hmem hentry hobject
      exact absurd rfl (of_decide_eq_true hfd)
    · exact hother hrest
  | release w =>
    simp only [Safe, not_forall] at hsafe
    obtain ⟨t, hw, hbound, hother⟩ := hsafe
    have hreceived := hconserved.workerOrigin w t (by rw [hw]; rfl)
    have hcon : t.con < s.accepted := hs.received _ (List.mem_of_getElem? hreceived)
    obtain ⟨-, -, rfl⟩ := release_inv hstep
    refine ⟨t.con, hcon, hbound, fun halive => hother ?_⟩
    unfold Alive at halive
    rw [owns_drop] at halive
    exact halive
  | _ => exact absurd trivial hsafe

/-! ## Runs -/

/-- **A functor that runs finds its connection alive.** In a run whose steps are all safe every
functor that runs does. Conversely, when the functors appended in a run have all run, and each found
its connection, then each step of the run was safe. -/
theorem lives_until_sent {queSize : Nat} {actions : List (Action W)} :
    (Run.Meets step Safe (start queSize) actions →
      Run.run step (start queSize) actions ≠ .error .danglingThis) ∧
    ∀ s, Run.run step (start queSize) actions = .ok s → s.tmp = [] → s.pengdings = [] →
      Run.Meets step Safe (start queSize) actions := by
  constructor
  · refine Run.run_ne_error (fun s => s.Numbered ∧ s.Reachable) ?_ ?_
      ⟨numbered_start queSize, fun con h => absurd h List.not_mem_nil⟩
    · intro s a s' hs hsafe hstep
      exact ⟨hs.1.step hstep, hs.2.step hs.1 hsafe hstep⟩
    · intro s a hs _ hstep
      obtain ⟨f, tmp, -, -, htmp, hdead⟩ := step_danglingThis hstep
      apply hdead
      apply hs.2
      unfold Bound
      rw [htmp]
      exact List.mem_cons_self
  · intro s hrun htmp hpend
    refine Run.meets_of_run (fun s => s.Numbered ∧ s.Conserved) Doomed ?_ ?_ ?_
      ⟨numbered_start queSize, conserved_start queSize⟩ hrun ?_
    · intro s a s' hs hstep
      exact ⟨hs.1.step hstep, hs.2.step hstep⟩
    · intro s a s' hs hsafe hstep
      exact doomed_of_not_safe hs.1 hs.2 hsafe hstep
    · intro s a s' hs hdoomed hstep
      exact hdoomed.step hs.2 hstep
    · rintro ⟨con, -, hbound, -⟩
      unfold Bound at hbound
      rw [htmp, hpend] at hbound
      exact absurd hbound List.not_mem_nil

/-- The peer closes and the worker lets go of the task before the loop runs the functor. -/
theorem dangling_reply :
    Run.run step (start 4 : EventLoop (Fin 1))
      [.accept 5, .message 5 (lit "a"), .pop 0, .append 0 (lit "A"), .wakeup 0, .close 5, .release 0,
        .handleRead, .swap, .run] = .error .danglingThis :=
  Except.eq_error_of_fails (by decide)

/-- The same steps with the functor run before the close. -/
theorem lives_until_sent_one :
    let actions : List (Action (Fin 1)) :=
      [.accept 5, .message 5 (lit "a"), .pop 0, .append 0 (lit "A"), .wakeup 0, .release 0,
        .handleRead, .swap, .run, .leave, .close 5]
    ∃ s : EventLoop (Fin 1), (Run.run step (start 4) actions = .ok s ∧ s.tmp = [] ∧ s.pengdings = []) ∧
      Run.Meets step Safe (start 4) actions ∧
      Run.run step (start 4) actions ≠ .error .danglingThis := by
  intro actions
  obtain ⟨s, hrun, hend⟩ := Except.exists_of_check
    (show (Run.run step (start 4) actions).check (fun s => s.tmp = [] ∧ s.pengdings = []) = true by
      decide)
  obtain ⟨htmp, hpend⟩ := of_decide_eq_true hend
  have hmeets := lives_until_sent.2 s hrun htmp hpend
  exact ⟨s, ⟨hrun, htmp, hpend⟩, hmeets, lives_until_sent.1 hmeets⟩

end EventLoop

end LightSearch
