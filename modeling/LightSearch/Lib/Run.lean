/-!
# Runs of a step that can fail

A step of a machine takes a state and an action to the next state, or fails. `run` takes the actions
of a list one after the other and fails with the first step that does.

Three rules carry a fact from one step to every run. `run_keeps` is partial: what each successful
step keeps holds after a successful run. `run_total` is total: when each admitted step succeeds and
keeps the fact, each run of admitted actions succeeds too. `run_refines` is the total rule for two
machines: a step that the abstract step simulates gives a run that the abstract run simulates.

`Meets` is for a condition that looks at the state before each step. `run_meets` is the total rule
for it, and `meets_of_run` its converse: when a step against the condition leaves a state from which
no step recovers, a run that ends well met the condition at each step.

Steps that lower a measure are bounded by it (`run_lowers`), so a run of them comes to a state where it
cannot go on (`exists_stuck`).

A loop with a test takes no actions and cannot fail, but may go on for ever. `atTest` are the states in
which it comes to its test. What the body keeps holds in all of them (`atTest_keeps`), and when the body
decreases a number too, the loop ends (`atTest_exits`).
-/

set_option autoImplicit false

universe u v w

/-! ## Results that can be an error -/

namespace Except

variable {ε : Type u} {α β : Type v}

/-- A successful bind succeeds on both sides. -/
theorem bind_eq_ok {x : Except ε α} {f : α → Except ε β} {b : β} :
    x >>= f = .ok b ↔ ∃ a, x = .ok a ∧ f a = .ok b := by
  cases x with
  | error e => exact ⟨(fun h => nomatch h), fun ⟨_, h, _⟩ => nomatch h⟩
  | ok a => exact ⟨fun h => ⟨a, rfl, h⟩, fun ⟨_, ha, h⟩ => Except.ok.inj ha ▸ h⟩

/-- A bind succeeds when both of its sides do. -/
theorem exists_bind_ok {x : Except ε α} {f : α → Except ε β} :
    (∃ b, x >>= f = .ok b) ↔ ∃ a, x = .ok a ∧ ∃ b, f a = .ok b := by
  simp only [bind_eq_ok]
  rw [exists_comm]
  simp only [exists_and_left]

/-- When only the first side can fail, it decides. -/
theorem exists_bind_ok_of_total {x : Except ε α} {f : α → Except ε β}
    (h : ∀ a, ∃ b, f a = .ok b) : (∃ b, x >>= f = .ok b) ↔ ∃ a, x = .ok a := by
  rw [exists_bind_ok]
  simp only [h, and_true]

@[simp] theorem ok_bind (a : α) (f : α → Except ε β) : Except.ok a >>= f = f a := rfl

@[simp] theorem error_bind (e : ε) (f : α → Except ε β) :
    (Except.error e : Except ε α) >>= f = .error e := rfl

/-- Whether a result is a value that passes a test. -/
def check (x : Except ε α) (p : α → Bool) : Bool :=
  match x with
  | .ok a => p a
  | .error _ => false

theorem exists_of_check {x : Except ε α} {p : α → Bool} (h : x.check p = true) :
    ∃ a, x = .ok a ∧ p a = true := by
  cases x with
  | error e => cases h
  | ok a => exact ⟨a, rfl, h⟩

/-- Whether a result is a certain error. -/
def fails [DecidableEq ε] (x : Except ε α) (e : ε) : Bool :=
  match x with
  | .ok _ => false
  | .error e' => e' = e

theorem eq_error_of_fails [DecidableEq ε] {x : Except ε α} {e : ε} (h : x.fails e = true) :
    x = .error e := by
  cases x with
  | ok a => cases h
  | error e' => rw [of_decide_eq_true h]

/-- A loop whose steps all succeed. -/
theorem mapM_ok {γ : Type w} {f : γ → Except ε β} {g : γ → β} {l : List γ}
    (h : ∀ a ∈ l, f a = .ok (g a)) : l.mapM f = .ok (l.map g) := by
  induction l with
  | nil => rfl
  | cons a l ih =>
    rw [List.mapM_cons, h a List.mem_cons_self, ok_bind,
      ih fun b hb => h b (List.mem_cons_of_mem _ hb)]
    rfl

/-- Loops whose steps do the same. -/
theorem mapM_congr {γ : Type w} {f g : γ → Except ε β} {l : List γ} (h : ∀ a ∈ l, f a = g a) :
    l.mapM f = l.mapM g := by
  induction l with
  | nil => rfl
  | cons a l ih =>
    rw [List.mapM_cons, List.mapM_cons, h a List.mem_cons_self,
      ih fun b hb => h b (List.mem_cons_of_mem _ hb)]

/-- In a loop that succeeds each step does, and its result is among the results. -/
theorem of_mapM_ok {γ : Type w} {f : γ → Except ε β} {l : List γ} {bs : List β}
    (h : l.mapM f = .ok bs) {a : γ} (ha : a ∈ l) : ∃ b ∈ bs, f a = .ok b := by
  induction l generalizing bs with
  | nil => exact absurd ha List.not_mem_nil
  | cons c l ih =>
    rw [List.mapM_cons] at h
    obtain ⟨b, hb, hrest⟩ := bind_eq_ok.mp h
    obtain ⟨bs', hbs', heq⟩ := bind_eq_ok.mp hrest
    obtain rfl := Except.ok.inj heq
    rcases List.mem_cons.mp ha with rfl | ha
    · exact ⟨b, List.mem_cons_self, hb⟩
    · obtain ⟨b', hb', hfa⟩ := ih hbs' ha
      exact ⟨b', List.mem_cons_of_mem _ hb', hfa⟩

/-- Each result of a loop is the result of a step. -/
theorem exists_of_mem_mapM {γ : Type w} {f : γ → Except ε β} {l : List γ} {bs : List β}
    (h : l.mapM f = .ok bs) {b : β} (hb : b ∈ bs) : ∃ a ∈ l, f a = .ok b := by
  induction l generalizing bs with
  | nil =>
    obtain rfl : [] = bs := Except.ok.inj h
    exact absurd hb List.not_mem_nil
  | cons a l ih =>
    rw [List.mapM_cons] at h
    obtain ⟨b', hb', hrest⟩ := bind_eq_ok.mp h
    obtain ⟨bs', hbs', heq⟩ := bind_eq_ok.mp hrest
    obtain rfl := Except.ok.inj heq
    rcases List.mem_cons.mp hb with rfl | hb
    · exact ⟨a, List.mem_cons_self, hb'⟩
    · obtain ⟨c, hc, hfc⟩ := ih hbs' hb
      exact ⟨c, List.mem_cons_of_mem _ hc, hfc⟩

/-- A loop succeeds when each of its steps does. -/
theorem exists_mapM_ok {γ : Type w} {f : γ → Except ε β} {l : List γ} :
    (∃ bs, l.mapM f = .ok bs) ↔ ∀ a ∈ l, ∃ b, f a = .ok b := by
  constructor
  · rintro ⟨bs, h⟩ a ha
    obtain ⟨b, -, hb⟩ := of_mapM_ok h ha
    exact ⟨b, hb⟩
  · intro h
    induction l with
    | nil => exact ⟨[], rfl⟩
    | cons a l ih =>
      obtain ⟨b, hb⟩ := h a List.mem_cons_self
      obtain ⟨bs, hbs⟩ := ih fun c hc => h c (List.mem_cons_of_mem _ hc)
      rw [List.mapM_cons, hb, ok_bind, hbs]
      exact ⟨b :: bs, rfl⟩

/-- **The rule for a counting loop**: an invariant of the counter and the state. -/
theorem foldlM_range {σ : Type v} {f : σ → Nat → Except ε σ} {n : Nat} {s : σ} (P : Nat → σ → Prop)
    (step : ∀ k s, k < n → P k s → ∃ s', f s k = .ok s' ∧ P (k + 1) s') (h : P 0 s) :
    ∃ s', (List.range n).foldlM f s = .ok s' ∧ P n s' := by
  induction n with
  | zero => exact ⟨s, rfl, h⟩
  | succ n ih =>
    obtain ⟨s₁, hrun, h₁⟩ := ih fun k s hk => step k s (Nat.lt_succ_of_lt hk)
    obtain ⟨s₂, hstep, h₂⟩ := step n s₁ (Nat.lt_succ_self n) h₁
    refine ⟨s₂, ?_, h₂⟩
    rw [List.range_succ, List.foldlM_append, hrun, ok_bind]
    simp [hstep]

/-- A loop has a result for each step. -/
theorem length_mapM {γ : Type w} {f : γ → Except ε β} {l : List γ} {bs : List β}
    (h : l.mapM f = .ok bs) : bs.length = l.length := by
  induction l generalizing bs with
  | nil =>
    obtain rfl : [] = bs := Except.ok.inj h
    rfl
  | cons a l ih =>
    rw [List.mapM_cons] at h
    obtain ⟨b, -, hrest⟩ := bind_eq_ok.mp h
    obtain ⟨bs', hbs', heq⟩ := bind_eq_ok.mp hrest
    obtain rfl := Except.ok.inj heq
    rw [List.length_cons, List.length_cons, ih hbs']

end Except

namespace Run

/-- Why a step of a machine fails: the action is not possible in the state. -/
inductive Disabled where
  | disabled
  deriving DecidableEq

variable {ε : Type u} {σ : Type v} {α : Type w}

/-- The state after the actions of a list, or the failure of the first step that fails. -/
def run (step : σ → α → Except ε σ) (s : σ) (actions : List α) : Except ε σ :=
  actions.foldlM step s

variable {step : σ → α → Except ε σ} {s s' : σ}

@[simp] theorem run_nil : run step s [] = .ok s := rfl

@[simp] theorem run_cons (a : α) (actions : List α) :
    run step s (a :: actions) = step s a >>= fun s₁ => run step s₁ actions := rfl

theorem run_append (actions later : List α) :
    run step s (actions ++ later) = run step s actions >>= fun s₁ => run step s₁ later :=
  List.foldlM_append

/-- In a successful run the step of each action succeeded. -/
theorem run_step {actions : List α} (hrun : run step s actions = .ok s') {a : α} (ha : a ∈ actions) :
    ∃ s₁ s₂, step s₁ a = .ok s₂ := by
  induction actions generalizing s with
  | nil => cases ha
  | cons b actions ih =>
    obtain ⟨s₁, hstep, hrest⟩ := Except.bind_eq_ok.mp hrun
    cases ha with
    | head => exact ⟨s, s₁, hstep⟩
    | tail _ ha => exact ih hrest ha

/-- When the actions alone decide which steps succeed, they decide which runs do. -/
theorem exists_run_ok {P : α → Prop} (h : ∀ s a, (∃ s', step s a = .ok s') ↔ P a)
    {actions : List α} : (∃ s', run step s actions = .ok s') ↔ ∀ a ∈ actions, P a := by
  induction actions generalizing s with
  | nil => exact ⟨fun _ a ha => absurd ha List.not_mem_nil, fun _ => ⟨s, rfl⟩⟩
  | cons a actions ih =>
    rw [List.forall_mem_cons, ← h s a]
    constructor
    · rintro ⟨s', hrun⟩
      obtain ⟨s₁, hstep, hrest⟩ := Except.bind_eq_ok.mp hrun
      exact ⟨⟨s₁, hstep⟩, ih.mp ⟨s', hrest⟩⟩
    · rintro ⟨⟨s₁, hstep⟩, hall⟩
      rw [run_cons, hstep, Except.ok_bind]
      exact ih.mpr hall

/-- **Refinement of runs.** When a concrete step from a state that represents an abstract one
succeeds and represents the abstract step, a run succeeds and represents the abstract run. -/
theorem run_refines {τ : Type v} (R : σ → τ → Prop) (abstract : τ → α → τ) (admits : α → Prop)
    (sim : ∀ s t a, R s t → admits a → ∃ s', step s a = .ok s' ∧ R s' (abstract t a))
    {t : τ} (h : R s t) (actions : List α) (hadmits : ∀ a ∈ actions, admits a) :
    ∃ s', run step s actions = .ok s' ∧ R s' (actions.foldl abstract t) := by
  induction actions generalizing s t with
  | nil => exact ⟨s, rfl, h⟩
  | cons a actions ih =>
    obtain ⟨s₁, hstep, h₁⟩ := sim s t a h (hadmits a List.mem_cons_self)
    obtain ⟨s₂, hrest, h₂⟩ := ih h₁ fun b hb => hadmits b (List.mem_cons_of_mem _ hb)
    exact ⟨s₂, by rw [run_cons, hstep, Except.ok_bind, hrest], h₂⟩

/-- When each admitted step from a state with the fact succeeds and keeps it, every run of admitted
actions succeeds and keeps it. -/
theorem run_total (Inv : σ → Prop) (admits : α → Prop)
    (total : ∀ s a, Inv s → admits a → ∃ s', step s a = .ok s' ∧ Inv s')
    (h : Inv s) (actions : List α) (hadmits : ∀ a ∈ actions, admits a) :
    ∃ s', run step s actions = .ok s' ∧ Inv s' :=
  run_refines (fun s (_ : PUnit) => Inv s) (fun t _ => t) admits
    (fun s _ a hs ha => total s a hs ha) (t := ⟨⟩) h actions hadmits

/-- The same when every action is admitted. -/
theorem run_always (Inv : σ → Prop) (total : ∀ s a, Inv s → ∃ s', step s a = .ok s' ∧ Inv s')
    (h : Inv s) (actions : List α) : ∃ s', run step s actions = .ok s' ∧ Inv s' :=
  run_total Inv (fun _ => True) (fun s a hs _ => total s a hs) h actions fun _ _ => trivial

/-- Every step of a run meets a condition on its action and the state before it. -/
def Meets (step : σ → α → Except ε σ) (cond : σ → α → Prop) : σ → List α → Prop
  | _, [] => True
  | s, a :: actions => cond s a ∧ ∀ s', step s a = .ok s' → Meets step cond s' actions

variable {cond : σ → α → Prop}

/-- A condition on the actions alone. -/
theorem meets_of_forall {admits : α → Prop} {actions : List α} (h : ∀ a ∈ actions, admits a) :
    Meets step (fun _ a => admits a) s actions := by
  induction actions generalizing s with
  | nil => trivial
  | cons a actions ih =>
    exact ⟨h a List.mem_cons_self, fun _ _ => ih fun b hb => h b (List.mem_cons_of_mem _ hb)⟩

/-- A condition that can be decided for a step can be decided for a run. -/
instance decidableMeets [∀ s a, Decidable (cond s a)] :
    (actions : List α) → (s : σ) → Decidable (Meets step cond s actions)
  | [], _ => .isTrue trivial
  | a :: actions, s =>
    if hcond : cond s a then
      match hstep : step s a with
      | .error _ => .isTrue ⟨hcond, fun _ h => nomatch hstep.symm.trans h⟩
      | .ok s' =>
        match decidableMeets actions s' with
        | .isTrue hrest =>
          .isTrue ⟨hcond, fun _ h => Except.ok.inj (hstep.symm.trans h) ▸ hrest⟩
        | .isFalse hrest => .isFalse fun h => hrest (h.2 s' hstep)
    else .isFalse fun h => hcond h.1

/-- The condition is met when it holds of each action of the list, in the state that the actions before
it lead to. -/
theorem meets_iff {actions : List α} :
    Meets step cond s actions ↔
      ∀ before a after s₁, actions = before ++ a :: after → run step s before = .ok s₁ →
        cond s₁ a := by
  induction actions generalizing s with
  | nil =>
    refine iff_of_true trivial fun before a after _ h => ?_
    exact absurd h.symm (List.append_ne_nil_of_right_ne_nil before (List.cons_ne_nil a after))
  | cons b actions ih =>
    unfold Meets
    simp only [ih]
    constructor
    · rintro ⟨hb, hrest⟩ before a after s₂ hactions hrun
      cases before with
      | nil =>
        obtain ⟨rfl, rfl⟩ := List.cons.inj hactions
        obtain rfl := Except.ok.inj hrun
        exact hb
      | cons c before =>
        obtain ⟨rfl, htail⟩ := List.cons.inj hactions
        obtain ⟨s₁, hstep, hlater⟩ := Except.bind_eq_ok.mp hrun
        exact hrest s₁ hstep before a after s₂ htail hlater
    · intro h
      refine ⟨h [] b actions s rfl rfl, fun s₁ hstep before a after s₂ hactions hrun => ?_⟩
      refine h (b :: before) a after s₂ (by rw [hactions, List.cons_append]) ?_
      rw [run_cons, hstep, Except.ok_bind, hrun]

/-- The beginning of a run meets a condition that the run meets. -/
theorem Meets.of_prefix {before actions : List α} (h : Meets step cond s actions)
    (hbefore : before <+: actions) : Meets step cond s before := by
  obtain ⟨after, rfl⟩ := hbefore
  apply meets_iff.mpr
  rintro first a last s₁ rfl hrun
  exact meets_iff.mp h first a (last ++ after) s₁ (by simp) hrun

/-- What every successful step that meets the condition keeps holds after every successful run of
them. -/
theorem run_keeps_meets (Inv : σ → Prop)
    (keeps : ∀ s a s', Inv s → cond s a → step s a = .ok s' → Inv s')
    {actions : List α} (h : Inv s) (hmeets : Meets step cond s actions)
    (hrun : run step s actions = .ok s') : Inv s' := by
  induction actions generalizing s with
  | nil => exact Except.ok.inj hrun ▸ h
  | cons a actions ih =>
    obtain ⟨s₁, hstep, hrest⟩ := Except.bind_eq_ok.mp hrun
    exact ih (keeps s a s₁ h hmeets.1 hstep) (hmeets.2 s₁ hstep) hrest

/-- What every successful step of an admitted action keeps holds after every successful run of
them. -/
theorem run_keeps_of (Inv : σ → Prop) (admits : α → Prop)
    (keeps : ∀ s a s', Inv s → admits a → step s a = .ok s' → Inv s')
    {actions : List α} (h : Inv s) (hadmits : ∀ a ∈ actions, admits a)
    (hrun : run step s actions = .ok s') : Inv s' :=
  run_keeps_meets Inv keeps h (meets_of_forall hadmits) hrun

/-- What every successful step keeps holds after every successful run. -/
theorem run_keeps (Inv : σ → Prop) (keeps : ∀ s a s', Inv s → step s a = .ok s' → Inv s')
    {actions : List α} (h : Inv s) (hrun : run step s actions = .ok s') : Inv s' :=
  run_keeps_of Inv (fun _ => True) (fun s a s' hs _ hstep => keeps s a s' hs hstep) h
    (fun _ _ => trivial) hrun

/-- When each step that meets the condition succeeds and keeps the fact, so does every run of them. -/
theorem run_meets (Inv : σ → Prop)
    (total : ∀ s a, Inv s → cond s a → ∃ s', step s a = .ok s' ∧ Inv s')
    {actions : List α} (h : Inv s) (hmeets : Meets step cond s actions) :
    ∃ s', run step s actions = .ok s' ∧ Inv s' := by
  induction actions generalizing s with
  | nil => exact ⟨s, rfl, h⟩
  | cons a actions ih =>
    obtain ⟨hcond, hrest⟩ := hmeets
    obtain ⟨s₁, hstep, h₁⟩ := total s a h hcond
    obtain ⟨s₂, hrun, h₂⟩ := ih h₁ (hrest s₁ hstep)
    exact ⟨s₂, by rw [run_cons, hstep, Except.ok_bind, hrun], h₂⟩

/-- An error that no step on the condition raises is not raised by a run of such steps. -/
theorem run_ne_error (Inv : σ → Prop) {e : ε}
    (keeps : ∀ s a s', Inv s → cond s a → step s a = .ok s' → Inv s')
    (safe : ∀ s a, Inv s → cond s a → step s a ≠ .error e)
    {actions : List α} (h : Inv s) (hmeets : Meets step cond s actions) :
    run step s actions ≠ .error e := by
  induction actions generalizing s with
  | nil => exact fun h => nomatch h
  | cons a actions ih =>
    obtain ⟨hcond, hrest⟩ := hmeets
    rw [run_cons]
    cases hstep : step s a with
    | error e' =>
      intro herror
      exact safe s a h hcond (hstep.trans herror)
    | ok s₁ =>
      rw [Except.ok_bind]
      exact ih (keeps s a s₁ h hcond hstep) (hrest s₁ hstep)

/-- What is bad stays bad. -/
theorem run_bad (Inv Bad : σ → Prop) (keeps : ∀ s a s', Inv s → step s a = .ok s' → Inv s')
    (stays : ∀ s a s', Inv s → Bad s → step s a = .ok s' → Bad s')
    {actions : List α} (h : Inv s) (hbad : Bad s) (hrun : run step s actions = .ok s') : Bad s' :=
  (run_keeps (fun s => Inv s ∧ Bad s)
    (fun s a s' hs hstep => ⟨keeps s a s' hs.1 hstep, stays s a s' hs.1 hs.2 hstep⟩) ⟨h, hbad⟩
    hrun).2

/-- A run that does not end badly met the condition at each step, when a step against the condition
leaves a bad state and what is bad stays bad. -/
theorem meets_of_run (Inv Bad : σ → Prop) (keeps : ∀ s a s', Inv s → step s a = .ok s' → Inv s')
    (breaks : ∀ s a s', Inv s → ¬ cond s a → step s a = .ok s' → Bad s')
    (stays : ∀ s a s', Inv s → Bad s → step s a = .ok s' → Bad s')
    {actions : List α} (h : Inv s) (hrun : run step s actions = .ok s') (hgood : ¬ Bad s') :
    Meets step cond s actions := by
  induction actions generalizing s with
  | nil => trivial
  | cons a actions ih =>
    obtain ⟨s₁, hstep, hrest⟩ := Except.bind_eq_ok.mp hrun
    have h₁ : Inv s₁ := keeps s a s₁ h hstep
    refine ⟨Classical.byContradiction fun hcond => ?_, fun s₁' hstep' => ?_⟩
    · exact hgood (run_bad Inv Bad keeps stays h₁ (breaks s a s₁ h hcond hstep) hrest)
    · obtain rfl := Except.ok.inj (hstep.symm.trans hstep')
      exact ih h₁ hrest

/-! ## Steps that lower a measure -/

/-- Such steps are no more than the measure says. -/
theorem run_lowers (Inv : σ → Prop) (admits : α → Prop) (measure : σ → Nat)
    (lowers : ∀ s a s', Inv s → admits a → step s a = .ok s' → Inv s' ∧ measure s' < measure s)
    {actions : List α} (h : Inv s) (hadmits : ∀ a ∈ actions, admits a)
    (hrun : run step s actions = .ok s') : Inv s' ∧ actions.length + measure s' ≤ measure s := by
  induction actions generalizing s with
  | nil =>
    obtain rfl := Except.ok.inj hrun
    exact ⟨h, Nat.le_of_eq (Nat.zero_add _)⟩
  | cons a actions ih =>
    obtain ⟨s₁, hstep, hrest⟩ := Except.bind_eq_ok.mp hrun
    obtain ⟨h₁, hless⟩ := lowers s a s₁ h (hadmits a List.mem_cons_self) hstep
    obtain ⟨h', hlength⟩ := ih h₁ (fun b hb => hadmits b (List.mem_cons_of_mem _ hb)) hrest
    refine ⟨h', ?_⟩
    rw [List.length_cons]
    omega

/-- They come to an end: some run of them cannot go on. -/
theorem exists_stuck (Inv : σ → Prop) (admits : α → Prop) (measure : σ → Nat)
    (lowers : ∀ s a s', Inv s → admits a → step s a = .ok s' → Inv s' ∧ measure s' < measure s)
    (h : Inv s) : ∃ actions s', (∀ a ∈ actions, admits a) ∧ run step s actions = .ok s' ∧
      ∀ a, admits a → ∀ s'', step s' a ≠ .ok s'' := by
  induction hmeasure : measure s using Nat.strongRecOn generalizing s with
  | ind n ih =>
    subst hmeasure
    by_cases hstuck : ∀ a, admits a → ∀ s'', step s a ≠ .ok s''
    · exact ⟨[], s, fun a ha => absurd ha List.not_mem_nil, rfl, hstuck⟩
    · simp only [Classical.not_forall, Classical.not_not] at hstuck
      obtain ⟨a, ha, s₁, hstep⟩ := hstuck
      obtain ⟨h₁, hless⟩ := lowers s a s₁ h ha hstep
      obtain ⟨actions, s', hadmits, hrun, hend⟩ := ih (measure s₁) hless h₁ rfl
      exact ⟨a :: actions, s', List.forall_mem_cons.mpr ⟨ha, hadmits⟩,
        by rw [run_cons, hstep, Except.ok_bind, hrun], hend⟩

/-! ## Loops with a test -/

/-- The state in which a loop comes to its test when the body has run so many times, if it runs so
often. -/
def atTest (test : σ → Bool) (body : σ → σ) : σ → Nat → Option σ
  | s, 0 => some s
  | s, n + 1 => if test s then atTest test body (body s) n else none

variable {test : σ → Bool} {body : σ → σ}

/-- **The rule for an invariant.** -/
theorem atTest_keeps (Inv : σ → Prop) (keeps : ∀ s, Inv s → test s = true → Inv (body s)) {n : Nat}
    (h : Inv s) (hat : atTest test body s n = some s') : Inv s' := by
  induction n generalizing s with
  | zero => exact Option.some.inj hat ▸ h
  | succ n ih =>
    unfold atTest at hat
    split at hat
    · next htest => exact ih (keeps s h htest) hat
    · cases hat

/-- **The rule for a variant**: the loop ends after at most so many times as the number is large. -/
theorem atTest_exits (Inv : σ → Prop) (left : σ → Nat)
    (keeps : ∀ s, Inv s → test s = true → Inv (body s))
    (decreases : ∀ s, Inv s → test s = true → left (body s) < left s) (h : Inv s) :
    ∃ n, n ≤ left s ∧ ∃ s', atTest test body s n = some s' ∧ test s' = false := by
  induction hleft : left s using Nat.strongRecOn generalizing s with
  | ind bound ih =>
    subst hleft
    cases htest : test s with
    | false => exact ⟨0, Nat.zero_le _, s, rfl, htest⟩
    | true =>
      have hless := decreases s h htest
      obtain ⟨n, hn, s', hat, hexit⟩ := ih (left (body s)) hless (keeps s h htest) rfl
      exact ⟨n + 1, Nat.lt_of_le_of_lt hn hless, s', by rw [atTest, if_pos htest, hat], hexit⟩

end Run
