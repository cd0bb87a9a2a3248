import LightSearch.Lib.Run
import Mathlib.Data.Finset.Card
import Mathlib.Data.Finset.Range

/-!
# The descriptors of the connections

A `TcpConnection` has its descriptor twice, in `_sock` and in `_sockIO`, and the destructor of each of
the two closes it. The members go in the reverse order of their declaration, so `_sock` closes first.
The destructor runs on the thread that lets go of the last owner, the event loop or a worker, and
`accept` takes the lowest number that is free. Between the two closes of a worker's destructor the
loop may accept a connection, and then the second close hits that one.

So each connection that is destroyed to the end is closed twice, and a run is free of this only as
long as no destructor gets to `_sockIO` (`closed_once_iff`). A stranger's descriptor is safe as long
as no accept gets the number of a connection that is between its two closes.
-/

set_option autoImplicit false
set_option linter.unusedSectionVars false

universe u

namespace LightSearch

/-- The event loop, or a worker. -/
inductive Thread (W : Type u) where
  | loop
  | worker (w : W)
  deriving DecidableEq

/-- The members of a `TcpConnection` whose destructors close a descriptor. -/
inductive Member where
  | sock
  | sockio
  deriving DecidableEq

/-- `~TcpConnection`: the members in the order of their destruction. -/
def destructor : List Member := [.sock, .sockio]

/-- The life of a connection: not accepted yet, alive, in its destructor on some thread with some
members left to destroy, or destroyed. -/
inductive Life (W : Type u) where
  | unborn
  | alive
  | dying (t : Thread W) (members : List Member)
  | gone
  deriving DecidableEq

/-- The destructor of the connection runs on the thread. -/
def Life.On {W : Type u} (t : Thread W) : Life W → Prop
  | dying t' _ => t' = t
  | _ => False

instance {W : Type u} [DecidableEq W] (t : Thread W) : DecidablePred (Life.On t)
  | .unborn => isFalse id
  | .alive => isFalse id
  | .dying t' _ => inferInstanceAs (Decidable (t' = t))
  | .gone => isFalse id

/-- How often a connection in some state of its life has been closed. -/
def Life.Closed {W : Type u} : Life W → Nat → Prop
  | .unborn, n => n = 0
  | .alive, n => n = 0
  | .dying _ members, n => members = [.sock, .sockio] ∧ n = 0 ∨ members = [.sockio] ∧ n = 1
  | .gone, n => n = 2

/-- The descriptor table and the connections, numbered in the order they were accepted. `closes` and
`stray` are an account: how often the destructor of a connection has closed its number, and which
connections closed a number that another one had. -/
structure Descriptors (W : Type u) where
  inUse : Finset Nat
  accepted : Nat
  fds : Nat → Nat
  life : Nat → Life W
  closes : Nat → Nat
  stray : List Nat

namespace Descriptors

variable {W : Type u} [DecidableEq W]

/-- Before the first connection, with the descriptors the process has open. -/
def start (inUse : Finset Nat) : Descriptors W :=
  { inUse := inUse, accepted := 0, fds := fun _ => 0, life := fun _ => .unborn, closes := fun _ => 0,
    stray := [] }

/-- The lowest number that is free. -/
def lowest (inUse : Finset Nat) : Nat :=
  ((List.range (inUse.card + 1)).find? fun n => n ∉ inUse).getD 0

/-- The loop accepts a connection, a thread starts the destructor of one, or the destructor of one
destroys its next member. -/
inductive Action (W : Type u) where
  | accept
  | destroy (t : Thread W) (k : Nat)
  | close (k : Nat)

/-- The thread is in no destructor. -/
def Idle (s : Descriptors W) (t : Thread W) : Prop := ∀ k, k < s.accepted → ¬ (s.life k).On t

instance (s : Descriptors W) (t : Thread W) : Decidable (s.Idle t) :=
  inferInstanceAs (Decidable (∀ k, k < s.accepted → ¬ (s.life k).On t))

/-- Another connection, which is alive, has the number of this one. -/
def Shared (s : Descriptors W) (k : Nat) : Prop :=
  ∃ j, j < s.accepted ∧ j ≠ k ∧ s.life j = .alive ∧ s.fds j = s.fds k

instance (s : Descriptors W) (k : Nat) : Decidable (s.Shared k) :=
  inferInstanceAs (Decidable (∃ j, j < s.accepted ∧ _))

def step (s : Descriptors W) : Action W → Except Run.Disabled (Descriptors W)
  | .accept =>
    if s.Idle .loop then
      .ok
        { s with
          inUse := insert (lowest s.inUse) s.inUse
          accepted := s.accepted + 1
          fds := Function.update s.fds s.accepted (lowest s.inUse)
          life := Function.update s.life s.accepted .alive }
    else .error .disabled
  | .destroy t k =>
    if s.life k = .alive ∧ s.Idle t then
      .ok { s with life := Function.update s.life k (.dying t destructor) }
    else .error .disabled
  | .close k =>
    match s.life k with
    | .dying t (_ :: members) =>
      .ok
        { s with
          inUse := s.inUse.erase (s.fds k)
          closes := Function.update s.closes k (s.closes k + 1)
          life := Function.update s.life k (if members = [] then .gone else .dying t members)
          stray := if s.Shared k then s.stray ++ [k] else s.stray }
    | _ => .error .disabled

/-- One of the first numbers is free, since there are fewer that are not. -/
theorem lowest_spec (inUse : Finset Nat) :
    lowest inUse ∉ inUse ∧ ∀ n, n < lowest inUse → n ∈ inUse := by
  unfold lowest
  cases hfind : (List.range (inUse.card + 1)).find? fun n => n ∉ inUse with
  | none =>
    have hall := List.find?_range_eq_none.mp hfind
    have hsub : Finset.range (inUse.card + 1) ⊆ inUse := by
      intro n hn
      have hn' := hall n (Finset.mem_range.mp hn)
      simpa using hn'
    have hcard := Finset.card_le_card hsub
    rw [Finset.card_range] at hcard
    omega
  | some fd =>
    obtain ⟨hfd, -, hlower⟩ := List.find?_range_eq_some.mp hfind
    refine ⟨of_decide_eq_true hfd, fun n hn => ?_⟩
    have hn' := hlower n hn
    simpa using hn'

/-! ## What a step does -/

theorem accept_inv {s s' : Descriptors W} (hstep : s.step .accept = .ok s') : s.Idle .loop ∧
    s' = { s with
      inUse := insert (lowest s.inUse) s.inUse
      accepted := s.accepted + 1
      fds := Function.update s.fds s.accepted (lowest s.inUse)
      life := Function.update s.life s.accepted .alive } := by
  simp only [Descriptors.step] at hstep
  split at hstep
  · next hidle => exact ⟨hidle, (Except.ok.inj hstep).symm⟩
  · cases hstep

theorem destroy_inv {s s' : Descriptors W} {t : Thread W} {k : Nat}
    (hstep : s.step (.destroy t k) = .ok s') : s.life k = .alive ∧ s.Idle t ∧
    s' = { s with life := Function.update s.life k (.dying t destructor) } := by
  simp only [Descriptors.step] at hstep
  split at hstep
  · next hk => exact ⟨hk.1, hk.2, (Except.ok.inj hstep).symm⟩
  · cases hstep

/-- A close runs the destructor of the connection, and adds one to its count. -/
theorem close_inv {s s' : Descriptors W} {k : Nat} (hstep : s.step (.close k) = .ok s') :
    ∃ t m members, s.life k = .dying t (m :: members) ∧ s' = { s with
      inUse := s.inUse.erase (s.fds k)
      closes := Function.update s.closes k (s.closes k + 1)
      life := Function.update s.life k (if members = [] then .gone else .dying t members)
      stray := if s.Shared k then s.stray ++ [k] else s.stray } := by
  simp only [Descriptors.step] at hstep
  split at hstep
  · next t m members hk => exact ⟨t, m, members, hk, (Except.ok.inj hstep).symm⟩
  · cases hstep

theorem closes_close {s s' : Descriptors W} {k : Nat} (hstep : s.step (.close k) = .ok s') :
    s'.closes = Function.update s.closes k (s.closes k + 1) := by
  obtain ⟨t, m, members, -, rfl⟩ := close_inv hstep
  rfl

/-- Only a close changes how often a connection was closed. -/
theorem closes_other {s s' : Descriptors W} {a : Action W} (ha : ∀ k, a ≠ .close k)
    (hstep : s.step a = .ok s') : s'.closes = s.closes := by
  cases a with
  | accept =>
    obtain ⟨-, rfl⟩ := accept_inv hstep
    rfl
  | destroy t k =>
    obtain ⟨-, -, rfl⟩ := destroy_inv hstep
    rfl
  | close k => exact absurd rfl (ha k)

/-! ## What holds in every run -/

/-- The life of each connection says how often it was closed, and those not accepted yet have no
number. -/
structure Counted (s : Descriptors W) : Prop where
  closed : ∀ k, (s.life k).Closed (s.closes k)
  unborn : ∀ k, s.accepted ≤ k → s.life k = .unborn

theorem counted_start (inUse : Finset Nat) : Counted (start inUse : Descriptors W) where
  closed := fun _ => rfl
  unborn := fun _ _ => rfl

/-- A connection whose life has begun was accepted. -/
theorem Counted.lt_accepted {s : Descriptors W} (h : s.Counted) {k : Nat}
    (hk : s.life k ≠ .unborn) : k < s.accepted := by
  by_contra hge
  exact hk (h.unborn k (Nat.le_of_not_lt hge))

theorem Counted.accepted_of_dying {s : Descriptors W} (h : s.Counted) {k : Nat} {t : Thread W}
    {members : List Member} (hk : s.life k = .dying t members) : k < s.accepted :=
  h.lt_accepted fun hunborn => nomatch hk.symm.trans hunborn

/-- A step keeps the count when it gives one connection a life that says how often it was closed. -/
theorem Counted.set {s s' : Descriptors W} (h : s.Counted) {k : Nat} {life : Life W}
    (haccepted : s.accepted ≤ s'.accepted) (hk : k < s'.accepted)
    (hlife : s'.life = Function.update s.life k life)
    (hcloses : ∀ j, j ≠ k → s'.closes j = s.closes j) (hclosed : life.Closed (s'.closes k)) :
    s'.Counted := by
  refine ⟨fun j => ?_, fun j hj => ?_⟩
  · rw [hlife]
    by_cases hjk : j = k
    · rw [hjk, Function.update_self]
      exact hclosed
    · rw [Function.update_of_ne hjk, hcloses j hjk]
      exact h.closed j
  · have hne : j ≠ k := by omega
    rw [hlife, Function.update_of_ne hne]
    exact h.unborn j (haccepted.trans hj)

/-- Every step keeps the count. -/
theorem Counted.step {s s' : Descriptors W} (h : s.Counted) {a : Action W}
    (hstep : s.step a = .ok s') : s'.Counted := by
  cases a with
  | accept =>
    obtain ⟨-, rfl⟩ := accept_inv hstep
    have hfresh := h.closed s.accepted
    rw [h.unborn s.accepted (Nat.le_refl _)] at hfresh
    exact h.set (Nat.le_succ _) (Nat.lt_succ_self _) rfl (fun _ _ => rfl) hfresh
  | destroy t k =>
    obtain ⟨hk, -, rfl⟩ := destroy_inv hstep
    have hkaccepted : k < s.accepted := h.lt_accepted fun hunborn => nomatch hk.symm.trans hunborn
    have halive := h.closed k
    rw [hk] at halive
    exact h.set (Nat.le_refl _) hkaccepted rfl (fun _ _ => rfl) (.inl ⟨rfl, halive⟩)
  | close k =>
    obtain ⟨t, m, members, hk, rfl⟩ := close_inv hstep
    have hdying := h.closed k
    rw [hk] at hdying
    refine h.set (Nat.le_refl _) (h.accepted_of_dying hk) rfl
      (fun _ hj => Function.update_of_ne hj _ _) ?_
    dsimp only
    rw [Function.update_self]
    rcases hdying with ⟨hmembers, hclosed⟩ | ⟨hmembers, hclosed⟩
    · -- `_sock` has closed, and `_sockIO` is left
      obtain ⟨-, rfl⟩ := List.cons.inj hmembers
      rw [if_neg (List.cons_ne_nil _ _), hclosed]
      exact .inr ⟨rfl, rfl⟩
    · obtain ⟨-, rfl⟩ := List.cons.inj hmembers
      rw [if_pos rfl, hclosed]
      exact rfl

/-! ## Numbers apart -/

/-- The connection has its number and has not closed it. -/
def Owns (s : Descriptors W) (k : Nat) : Prop := k < s.accepted ∧ s.closes k = 0

/-- A connection that has its number is the only one to have it, or still to close it; the others
that count are those closed `n` times at most. -/
structure Apart (n : Nat) (s : Descriptors W) : Prop where
  held : ∀ j, s.Owns j → s.fds j ∈ s.inUse
  apart : ∀ j k, s.Owns j → k < s.accepted → s.closes k ≤ n → j ≠ k → s.fds j ≠ s.fds k

theorem apart_start (n : Nat) (inUse : Finset Nat) : Apart n (start inUse : Descriptors W) where
  held := fun _ h => absurd h.1 (Nat.not_lt_zero _)
  apart := fun _ _ h => absurd h.1 (Nat.not_lt_zero _)

/-- The step takes no number that a connection closed at most `n` times has still to close, and
closes no number more than `n + 1` times. -/
def Allowed (n : Nat) (s : Descriptors W) : Action W → Prop
  | .accept => ∀ k, k < s.accepted → 0 < s.closes k → s.closes k ≤ n → s.fds k ≠ lowest s.inUse
  | .destroy _ _ => True
  | .close k => s.closes k ≤ n

/-- **An allowed step keeps the numbers apart.** -/
theorem Apart.step {n : Nat} {s s' : Descriptors W} (hs : s.Counted) (h : s.Apart n) {a : Action W}
    (ha : Allowed n s a) (hstep : s.step a = .ok s') : s'.Apart n := by
  cases a with
  | accept =>
    obtain ⟨-, rfl⟩ := accept_inv hstep
    have hfree := (lowest_spec s.inUse).1
    have hold : ∀ j, j < s.accepted + 1 → j ≠ s.accepted → j < s.accepted := fun j hj hne => by omega
    constructor
    · rintro j ⟨hj, hclosed⟩
      dsimp only at hj hclosed ⊢
      by_cases hja : j = s.accepted
      · subst hja
        rw [Function.update_self]
        exact Finset.mem_insert_self _ _
      · rw [Function.update_of_ne hja]
        exact Finset.mem_insert_of_mem (h.held j ⟨hold j hj hja, hclosed⟩)
    · rintro j k ⟨hj, hjclosed⟩ hk hkclosed hne
      dsimp only at hj hjclosed hk hkclosed ⊢
      by_cases hja : j = s.accepted
      · -- the new number against an old one
        subst hja
        have hkold := hold k hk hne.symm
        rw [Function.update_self, Function.update_of_ne hne.symm]
        by_cases hzero : s.closes k = 0
        · intro heq
          exact hfree (heq ▸ h.held k ⟨hkold, hzero⟩)
        · exact (ha k hkold (Nat.pos_of_ne_zero hzero) hkclosed).symm
      · have hjold := hold j hj hja
        rw [Function.update_of_ne hja]
        by_cases hka : k = s.accepted
        · subst hka
          rw [Function.update_self]
          intro heq
          exact hfree (heq ▸ h.held j ⟨hjold, hjclosed⟩)
        · rw [Function.update_of_ne hka]
          exact h.apart j k ⟨hjold, hjclosed⟩ (hold k hk hka) hkclosed hne
  | destroy t k =>
    obtain ⟨-, -, rfl⟩ := destroy_inv hstep
    exact ⟨h.held, h.apart⟩
  | close k =>
    obtain ⟨t, m, members, hk, rfl⟩ := close_inv hstep
    have hkaccepted := hs.accepted_of_dying hk
    -- who owns its number now is another connection, and owned it before
    have hother : ∀ j, Function.update s.closes k (s.closes k + 1) j = 0 →
        j ≠ k ∧ s.closes j = 0 := by
      intro j hj
      by_cases hjk : j = k
      · subst hjk
        rw [Function.update_self] at hj
        cases hj
      · rw [Function.update_of_ne hjk] at hj
        exact ⟨hjk, hj⟩
    constructor
    · rintro j ⟨hj, hclosed⟩
      obtain ⟨hjk, hzero⟩ := hother j hclosed
      exact Finset.mem_erase.mpr
        ⟨h.apart j k ⟨hj, hzero⟩ hkaccepted ha hjk, h.held j ⟨hj, hzero⟩⟩
    · rintro j i ⟨hj, hclosed⟩ hi hiclosed hne
      obtain ⟨-, hzero⟩ := hother j hclosed
      refine h.apart j i ⟨hj, hzero⟩ hi ?_ hne
      dsimp only at hiclosed
      by_cases hik : i = k
      · subst hik
        exact ha
      · rwa [Function.update_of_ne hik] at hiclosed

/-- With the numbers apart a close hits no other connection. -/
theorem stray_step {n : Nat} {s s' : Descriptors W} (hs : s.Counted) (h : s.Apart n) {a : Action W}
    (ha : Allowed n s a) (hstray : s.stray = []) (hstep : s.step a = .ok s') : s'.stray = [] := by
  cases a with
  | accept =>
    obtain ⟨-, rfl⟩ := accept_inv hstep
    exact hstray
  | destroy t k =>
    obtain ⟨-, -, rfl⟩ := destroy_inv hstep
    exact hstray
  | close k =>
    obtain ⟨t, m, members, hk, rfl⟩ := close_inv hstep
    have hkaccepted := hs.accepted_of_dying hk
    have hnot : ¬ s.Shared k := by
      rintro ⟨j, hj, hjk, halive, hfds⟩
      have hclosed := hs.closed j
      rw [halive] at hclosed
      exact h.apart j k ⟨hj, hclosed⟩ hkaccepted ha hjk hfds
    dsimp only
    rw [if_neg hnot, hstray]

/-! ## Runs -/

/-- The destructor is at its first member: no descriptor is closed by `~SocketIO`. -/
def FirstClose (s : Descriptors W) : Action W → Prop
  | .close k => ∀ t members, s.life k = .dying t members → members = destructor
  | _ => True

/-- No accept gets the number of a connection whose `_sockIO` has still to close it. -/
def NoReuse (s : Descriptors W) : Action W → Prop
  | .accept => ∀ k t, s.life k = .dying t [.sockio] → s.fds k ≠ lowest s.inUse
  | _ => True

/-- Each connection is closed once at most, and exactly once when it is destroyed, and no close hit
another connection. -/
structure Correct (s : Descriptors W) : Prop where
  atMostOnce : ∀ k, s.closes k ≤ 1
  once : ∀ k, s.life k = .gone → s.closes k = 1
  noStray : s.stray = []

theorem allowed_of_firstClose {s s' : Descriptors W} (hs : s.Counted) {a : Action W}
    (ha : FirstClose s a) (hstep : s.step a = .ok s') : Allowed 0 s a := by
  cases a with
  | accept => exact fun k _ hpos hzero => absurd hpos (Nat.not_lt.mpr hzero)
  | destroy t k => trivial
  | close k =>
    obtain ⟨t, m, members, hk, -⟩ := close_inv hstep
    have hclosed := hs.closed k
    rw [hk] at hclosed
    rcases hclosed with ⟨-, hzero⟩ | ⟨hmembers, -⟩
    · exact hzero.le
    · cases hmembers.symm.trans (ha t _ hk)

theorem allowed_of_noReuse {s s' : Descriptors W} (hs : s.Counted) {a : Action W}
    (ha : NoReuse s a) (hstep : s.step a = .ok s') : Allowed 1 s a := by
  cases a with
  | accept =>
    intro k _ hpos hle
    have hclosed := hs.closed k
    cases hlife : s.life k with
    | dying t members =>
      rw [hlife] at hclosed
      rcases hclosed with ⟨-, hzero⟩ | ⟨rfl, -⟩
      · omega
      · exact ha k t hlife
    | _ =>
      rw [hlife] at hclosed
      have hcount : s.closes k = _ := hclosed
      omega
  | destroy t k => trivial
  | close k =>
    obtain ⟨t, m, members, hk, -⟩ := close_inv hstep
    have hclosed := hs.closed k
    rw [hk] at hclosed
    rcases hclosed with ⟨-, hzero⟩ | ⟨-, hone⟩
    · exact hzero.le.trans (Nat.zero_le 1)
    · exact hone.le

/-- No step takes a close back. -/
theorem closes_mono {s s' : Descriptors W} {a : Action W} (hstep : s.step a = .ok s') (k : Nat) :
    s.closes k ≤ s'.closes k := by
  cases a with
  | close j =>
    rw [closes_close hstep]
    by_cases hkj : k = j
    · subst hkj
      rw [Function.update_self]
      exact Nat.le_succ _
    · rw [Function.update_of_ne hkj]
  | _ => rw [closes_other (fun _ heq => by cases heq) hstep]

/-- A run of first closes closes each number once at most. -/
theorem closes_firstClose {s s' : Descriptors W} {a : Action W} (hs : s.Counted)
    (h : ∀ k, s.closes k ≤ 1) (ha : FirstClose s a) (hstep : s.step a = .ok s') (k : Nat) :
    s'.closes k ≤ 1 := by
  have hallowed := allowed_of_firstClose hs ha hstep
  cases a with
  | close j =>
    rw [closes_close hstep]
    by_cases hkj : k = j
    · subst hkj
      rw [Function.update_self]
      exact Nat.succ_le_succ hallowed
    · rw [Function.update_of_ne hkj]
      exact h k
  | _ =>
    rw [closes_other (fun _ heq => by cases heq) hstep]
    exact h k

/-- **Descriptors closed once.** A run closes each accepted descriptor exactly once, and none of
another connection, exactly when no destructor in it gets to `_sockIO`: a connection that is
destroyed to the end is closed twice. And no connection's descriptor is closed by another one as long
as no accept gets a number that is still to be closed. -/
theorem closed_once_iff {inUse : Finset Nat} {actions : List (Action W)} {s : Descriptors W}
    (hrun : Run.run step (start inUse) actions = .ok s) :
    (s.Correct ↔ Run.Meets step FirstClose (start inUse) actions) ∧
      (Run.Meets step NoReuse (start inUse) actions → s.stray = []) := by
  refine ⟨⟨fun hcorrect => ?_, fun hmeets => ?_⟩, fun hmeets => ?_⟩
  · refine Run.meets_of_run Counted (fun s => ∃ k, 2 ≤ s.closes k) (fun s a s' hs => hs.step) ?_ ?_
      (counted_start inUse) hrun ?_
    · intro s a s' hs ha hstep
      cases a with
      | close k =>
        simp only [FirstClose, not_forall] at ha
        obtain ⟨t, members, hk, hne⟩ := ha
        have hclosed := hs.closed k
        rw [hk] at hclosed
        have hone := (hclosed.resolve_left fun h => hne h.1).2
        exact ⟨k, by rw [closes_close hstep, Function.update_self, hone]⟩
      | _ => exact absurd trivial ha
    · rintro s a s' - ⟨k, hk⟩ hstep
      exact ⟨k, hk.trans (closes_mono hstep k)⟩
    · rintro ⟨k, hk⟩
      have hle := hcorrect.atMostOnce k
      omega
  · obtain ⟨hcounted, -, hstray, hcloses⟩ := Run.run_keeps_meets
      (fun s => s.Counted ∧ s.Apart 0 ∧ s.stray = [] ∧ ∀ k, s.closes k ≤ 1)
      (fun s a s' hs ha hstep =>
        have hallowed := allowed_of_firstClose hs.1 ha hstep
        ⟨hs.1.step hstep, hs.2.1.step hs.1 hallowed hstep,
          stray_step hs.1 hs.2.1 hallowed hs.2.2.1 hstep,
          closes_firstClose hs.1 hs.2.2.2 ha hstep⟩)
      ⟨counted_start inUse, apart_start 0 inUse, rfl, fun _ => Nat.zero_le 1⟩ hmeets hrun
    refine ⟨hcloses, fun k hk => ?_, hstray⟩
    -- none is destroyed to the end
    have hclosed := hcounted.closed k
    rw [hk] at hclosed
    have hle := hcloses k
    have htwo : s.closes k = 2 := hclosed
    omega
  · exact (Run.run_keeps_meets (fun s => s.Counted ∧ s.Apart 1 ∧ s.stray = [])
      (fun s a s' hs ha hstep =>
        have hallowed := allowed_of_noReuse hs.1 ha hstep
        ⟨hs.1.step hstep, hs.2.1.step hs.1 hallowed hstep,
          stray_step hs.1 hs.2.1 hallowed hs.2.2 hstep⟩)
      ⟨counted_start inUse, apart_start 1 inUse, rfl⟩ hmeets hrun).2.2

/-- A worker destroys a connection, and the loop accepts one between its two closes. -/
theorem not_correct_reuse :
    ∃ s : Descriptors (Fin 1),
      Run.run step (start {0, 1, 2}) [.accept, .destroy (.worker 0) 0, .close 0, .accept, .close 0] =
        .ok s ∧ s.life 1 = .alive ∧ ¬ s.Correct := by
  obtain ⟨s, hrun, hs⟩ := Except.exists_of_check
    (show (Run.run step (start {0, 1, 2} : Descriptors (Fin 1))
      [.accept, .destroy (.worker 0) 0, .close 0, .accept, .close 0]).check
        (fun s => s.life 1 = .alive ∧ s.stray = [0]) = true by decide)
  obtain ⟨halive, hstray⟩ := of_decide_eq_true hs
  exact ⟨s, hrun, halive, fun hcorrect => nomatch hstray.symm.trans hcorrect.noStray⟩

/-- A connection accepted while another one is destroyed on a worker, after its first close. -/
theorem closed_once_iff_two :
    let first : Descriptors (Fin 1) := start {0, 1, 2}
    let actions : List (Action (Fin 1)) :=
      [.accept, .destroy (.worker 0) 0, .close 0, .accept]
    ∃ s, Run.run step first actions = .ok s ∧
      (s.Correct ↔ Run.Meets step FirstClose first actions) ∧
      (Run.Meets step NoReuse first actions → s.stray = []) := by
  intro first actions
  obtain ⟨s, hrun, -⟩ := Except.exists_of_check
    (show (Run.run step first actions).check (fun s => s.accepted = 2) = true by decide)
  exact ⟨s, hrun, closed_once_iff hrun⟩

end Descriptors

end LightSearch
