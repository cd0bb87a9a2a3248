import Mathlib.Algebra.BigOperators.Group.Finset.Piecewise

/-!
# Threads of a program

The threads are the elements of a finite type, and each has a state. `count` is the number of threads
whose state has some property, and `wake` moves the threads of a set to another state at once, as a
signal does. The laws say how a count changes when one thread moves (`count_update`, a case of
`total_update`) and when a set of threads does (`count_wake`).
-/

set_option autoImplicit false

universe u v

namespace Threads

variable {ι : Type u} {α : Type v} [DecidableEq ι]

/-- The threads of a set move. -/
def wake (f : ι → α) (woken : Finset ι) (g : α → α) : ι → α :=
  fun i => if i ∈ woken then g (f i) else f i

theorem wake_of_mem {f : ι → α} {woken : Finset ι} {i : ι} (h : i ∈ woken) (g : α → α) :
    wake f woken g i = g (f i) := if_pos h

theorem wake_of_notMem {f : ι → α} {woken : Finset ι} {i : ι} (h : i ∉ woken) (g : α → α) :
    wake f woken g i = f i := if_neg h

/-- The threads that a signal may wake: some that sleep, and at least one if there is any. -/
def Signals (sleeps : α → Prop) (f : ι → α) (woken : Finset ι) : Prop :=
  (∀ i ∈ woken, sleeps (f i)) ∧ ((∃ i, sleeps (f i)) → woken.Nonempty)

/-- Who has a property after one thread moved away from it had it before. -/
theorem exists_of_update {q : α → Prop} {f : ι → α} {i : ι} {a : α} (ha : ¬ q a)
    (h : ∃ j, q (Function.update f i a j)) : ∃ j, q (f j) := by
  obtain ⟨j, hj⟩ := h
  by_cases hji : j = i
  · subst hji
    rw [Function.update_self] at hj
    exact absurd hj ha
  · rw [Function.update_of_ne hji] at hj
    exact ⟨j, hj⟩

/-- Who sleeps after a signal slept before. -/
theorem exists_of_wake {sleeps : α → Prop} {f : ι → α} {woken : Finset ι} {g : α → α}
    (h : Signals sleeps f woken) (hasleep : ∃ i, sleeps (wake f woken g i)) : ∃ i, sleeps (f i) := by
  obtain ⟨i, hi⟩ := hasleep
  by_cases hmem : i ∈ woken
  · exact ⟨i, h.1 i hmem⟩
  · rw [wake_of_notMem hmem] at hi
    exact ⟨i, hi⟩

instance [Fintype ι] (sleeps : α → Prop) [DecidablePred sleeps] (f : ι → α) (woken : Finset ι) :
    Decidable (Signals sleeps f woken) := inferInstanceAs (Decidable (_ ∧ _))

variable [Fintype ι]

/-- The sum of a measure of the threads. -/
def total (r : α → Nat) (f : ι → α) : Nat := ∑ i, r (f i)

/-- One thread moves. -/
theorem total_update (r : α → Nat) (f : ι → α) (i : ι) (a : α) :
    total r (Function.update f i a) + r (f i) = total r f + r a := by
  have hsplit : ∀ g : ι → α, total r g = r (g i) + ∑ j ∈ Finset.univ.erase i, r (g j) := fun g =>
    (Finset.add_sum_erase Finset.univ (fun j => r (g j)) (Finset.mem_univ i)).symm
  have hothers : ∑ j ∈ Finset.univ.erase i, r (Function.update f i a j) =
      ∑ j ∈ Finset.univ.erase i, r (f j) :=
    Finset.sum_congr rfl fun j hj => by rw [Function.update_of_ne (Finset.ne_of_mem_erase hj)]
  rw [hsplit f, hsplit (Function.update f i a), hothers, Function.update_self]
  omega

variable (p : α → Prop) [DecidablePred p]

/-- The number of threads whose state has a property. -/
def count (f : ι → α) : Nat := ∑ i, if p (f i) then 1 else 0

theorem count_update (f : ι → α) (i : ι) (a : α) :
    count p (Function.update f i a) + (if p (f i) then 1 else 0) =
      count p f + (if p a then 1 else 0) :=
  total_update (fun a => if p a then 1 else 0) f i a

omit [DecidableEq ι] in
/-- When no thread has the property, the count is zero. -/
theorem count_eq_zero {f : ι → α} (h : ∀ i, ¬ p (f i)) : count p f = 0 :=
  Finset.sum_eq_zero fun i _ => if_neg (h i)

/-- The threads that move now have the property, and did not have it. -/
theorem count_wake (f : ι → α) (woken : Finset ι) {g : α → α}
    (hbefore : ∀ i ∈ woken, ¬ p (f i)) (hafter : ∀ i ∈ woken, p (g (f i))) :
    count p (wake f woken g) = count p f + woken.card := by
  have hsum : ∀ i, (if p (wake f woken g i) then 1 else 0) =
      (if p (f i) then 1 else 0) + (if i ∈ woken then 1 else 0) := by
    intro i
    by_cases hi : i ∈ woken
    · simp only [wake_of_mem hi, hafter i hi, hbefore i hi, hi, ↓reduceIte]
    · simp only [wake_of_notMem hi, hi, ↓reduceIte, Nat.add_zero]
  unfold count
  rw [Finset.sum_congr rfl fun i _ => hsum i, Finset.sum_add_distrib, Finset.sum_ite_mem,
    Finset.univ_inter, ← Finset.card_eq_sum_ones]

/-- A signal leaves somebody asleep only if somebody slept, and then it woke a thread: the count of
those that are awake and have not run yet goes up. -/
theorem count_signal {sleeps : α → Prop} {f : ι → α} {woken : Finset ι} {g : α → α}
    (h : Signals sleeps f woken) (hasleep : ∃ i, sleeps (f i))
    (hbefore : ∀ a, sleeps a → ¬ p a) (hafter : ∀ a, sleeps a → p (g a)) :
    count p f + 1 ≤ count p (wake f woken g) := by
  have hcount := count_wake p f woken (fun i hi => hbefore _ (h.1 i hi))
    fun i hi => hafter _ (h.1 i hi)
  have hcard := Finset.card_pos.mpr (h.2 hasleep)
  omega

end Threads
