import Mathlib.Order.Lattice.Nat

/-!
# The Levenshtein distance

An `Edit` inserts, deletes or substitutes one element of a list, and the distance of two lists is the
least number of edits that lead from one to the other.

Edits may come in any order and undo each other. An `Alignment` is the orderly kind: it goes through
both lists once, and its cost counts the elements it does not keep. The two say the same about the
least number (`edits_of_alignment`, `alignment_of_edits`), and an alignment can be taken apart at
either end, which is what a dynamic programme does (`levenshtein_concat`, `levenshtein_concat_self`).
-/

set_option autoImplicit false

universe u

namespace Levenshtein

variable {α : Type u} {xs ys zs : List α} {m n : Nat}

/-- One edit of a list. -/
inductive Edit : List α → List α → Prop
  | insert (pre : List α) (a : α) (post : List α) : Edit (pre ++ post) (pre ++ a :: post)
  | delete (pre : List α) (a : α) (post : List α) : Edit (pre ++ a :: post) (pre ++ post)
  | substitute (pre : List α) (a b : α) (post : List α) :
    Edit (pre ++ a :: post) (pre ++ b :: post)

/-- So many edits, one after the other. -/
inductive Edits : Nat → List α → List α → Prop
  | none (xs : List α) : Edits 0 xs xs
  | step {n : Nat} {xs ys zs : List α} (first : Edit xs ys) (rest : Edits n ys zs) :
    Edits (n + 1) xs zs

/-- The least number of edits. -/
noncomputable def levenshtein (xs ys : List α) : Nat := sInf {n | Edits n xs ys}

/-- A way through both lists, and its cost. -/
inductive Alignment : Nat → List α → List α → Prop
  | nil : Alignment 0 [] []
  | keep {n : Nat} {xs ys : List α} (a : α) (rest : Alignment n xs ys) :
    Alignment n (a :: xs) (a :: ys)
  | substitute {n : Nat} {xs ys : List α} (a b : α) (rest : Alignment n xs ys) :
    Alignment (n + 1) (a :: xs) (b :: ys)
  | insert {n : Nat} {xs ys : List α} (b : α) (rest : Alignment n xs ys) :
    Alignment (n + 1) xs (b :: ys)
  | delete {n : Nat} {xs ys : List α} (a : α) (rest : Alignment n xs ys) :
    Alignment (n + 1) (a :: xs) ys

/-! ## Alignments -/

namespace Alignment

theorem refl (xs : List α) : Alignment 0 xs xs := by
  induction xs with
  | nil => exact nil
  | cons a xs ih => exact keep a ih

theorem append {xs' ys' : List α} (h : Alignment m xs ys) (h' : Alignment n xs' ys') :
    Alignment (m + n) (xs ++ xs') (ys ++ ys') := by
  induction h with
  | nil => simpa using h'
  | keep a rest ih => exact keep a ih
  | substitute a b rest ih => simpa [Nat.add_right_comm] using substitute a b ih
  | insert b rest ih => simpa [Nat.add_right_comm] using insert b ih
  | delete a rest ih => simpa [Nat.add_right_comm] using delete a ih

/-- An alignment read from the end. -/
theorem reverse (h : Alignment n xs ys) : Alignment n xs.reverse ys.reverse := by
  induction h with
  | nil => exact nil
  | keep a rest ih => simpa using ih.append (keep a nil)
  | substitute a b rest ih => simpa using ih.append (substitute a b nil)
  | insert b rest ih => simpa using ih.append (insert b nil)
  | delete a rest ih => simpa using ih.append (delete a nil)

/-- Everything is deleted, or everything is inserted. -/
theorem of_nil (xs : List α) : Alignment xs.length xs [] := by
  induction xs with
  | nil => exact nil
  | cons a xs ih => exact delete a ih

theorem nil_of (ys : List α) : Alignment ys.length [] ys := by
  induction ys with
  | nil => exact nil
  | cons b ys ih => exact insert b ih

/-- Each side is at most the cost longer than the other. -/
theorem length_le (h : Alignment n xs ys) : xs.length ≤ ys.length + n ∧ ys.length ≤ xs.length + n := by
  induction h with
  | nil => exact ⟨Nat.le_refl _, Nat.le_refl _⟩
  | keep a rest ih => simp only [List.length_cons]; omega
  | substitute a b rest ih => simp only [List.length_cons]; omega
  | insert b rest ih => simp only [List.length_cons]; omega
  | delete a rest ih => simp only [List.length_cons]; omega

/-- What an alignment does with the first element on the left, after the insertions before it. -/
theorem cons_induction {b : α} {motive : ∀ {zs n}, Alignment n (b :: ys) zs → Prop}
    (keep : ∀ {n zs} (rest : Alignment n ys zs), motive (rest.keep b))
    (substitute : ∀ {n zs} (d : α) (rest : Alignment n ys zs), motive (rest.substitute b d))
    (insert : ∀ {n zs} (d : α) (rest : Alignment n (b :: ys) zs), motive rest → motive (rest.insert d))
    (delete : ∀ {n zs} (rest : Alignment n ys zs), motive (rest.delete b))
    (h : Alignment n (b :: ys) zs) : motive h := by
  have hall : ∀ ys' (h' : Alignment n ys' zs) (hys : ys' = b :: ys), motive (hys ▸ h') := by
    intro ys' h' hys
    induction h' with
    | nil => cases hys
    | keep c rest _ =>
      cases hys
      exact keep rest
    | substitute c d rest _ =>
      cases hys
      exact substitute d rest
    | insert d rest ih =>
      cases hys
      exact insert d rest (ih rest rfl)
    | delete c rest _ =>
      cases hys
      exact delete rest
  exact hall (b :: ys) h rfl

/-- One alignment after another is an alignment, which may cost less than both. -/
theorem trans (h : Alignment m xs ys) (h' : Alignment n ys zs) :
    ∃ k ≤ m + n, Alignment k xs zs := by
  induction h generalizing n zs with
  | nil => exact ⟨n, by omega, h'⟩
  | delete a rest ih =>
    obtain ⟨k, hk, hrest⟩ := ih h'
    exact ⟨k + 1, by omega, delete a hrest⟩
  | keep a rest ih =>
    induction h' using cons_induction with
    | keep rest' =>
      obtain ⟨k, hk, hrest⟩ := ih rest'
      exact ⟨k, hk, keep a hrest⟩
    | substitute d rest' =>
      obtain ⟨k, hk, hrest⟩ := ih rest'
      exact ⟨k + 1, by omega, substitute a d hrest⟩
    | insert d _ ih' =>
      obtain ⟨k, hk, hrest⟩ := ih'
      exact ⟨k + 1, by omega, insert d hrest⟩
    | delete rest' =>
      obtain ⟨k, hk, hrest⟩ := ih rest'
      exact ⟨k + 1, by omega, delete a hrest⟩
  | substitute a b rest ih =>
    induction h' using cons_induction with
    | keep rest' =>
      obtain ⟨k, hk, hrest⟩ := ih rest'
      exact ⟨k + 1, by omega, substitute a b hrest⟩
    | substitute d rest' =>
      obtain ⟨k, hk, hrest⟩ := ih rest'
      exact ⟨k + 1, by omega, substitute a d hrest⟩
    | insert d _ ih' =>
      obtain ⟨k, hk, hrest⟩ := ih'
      exact ⟨k + 1, by omega, insert d hrest⟩
    | delete rest' =>
      obtain ⟨k, hk, hrest⟩ := ih rest'
      exact ⟨k + 1, by omega, delete a hrest⟩
  | insert b rest ih =>
    induction h' using cons_induction with
    | keep rest' =>
      obtain ⟨k, hk, hrest⟩ := ih rest'
      exact ⟨k + 1, by omega, insert b hrest⟩
    | substitute d rest' =>
      obtain ⟨k, hk, hrest⟩ := ih rest'
      exact ⟨k + 1, by omega, insert d hrest⟩
    | insert d _ ih' =>
      obtain ⟨k, hk, hrest⟩ := ih'
      exact ⟨k + 1, by omega, insert d hrest⟩
    | delete rest' =>
      -- what was inserted is deleted again
      obtain ⟨k, hk, hrest⟩ := ih rest'
      exact ⟨k, by omega, hrest⟩

/-- An element less on the left costs at most one more. -/
theorem of_cons {a : α} (h : Alignment n (a :: xs) ys) : ∃ k ≤ n + 1, Alignment k xs ys := by
  obtain ⟨k, hk, hrest⟩ := (insert a (refl xs)).trans h
  exact ⟨k, by omega, hrest⟩

theorem of_cons_right {b : α} (h : Alignment n xs (b :: ys)) : ∃ k ≤ n + 1, Alignment k xs ys := by
  obtain ⟨k, hk, hrest⟩ := h.trans (delete b (refl ys))
  exact ⟨k, by omega, hrest⟩

/-- **A match may be taken**: equal first elements are kept at no cost. -/
theorem of_cons_self {a : α} (h : Alignment n (a :: xs) (a :: ys)) : ∃ k ≤ n, Alignment k xs ys := by
  cases h with
  | keep _ rest => exact ⟨n, Nat.le_refl n, rest⟩
  | substitute _ _ rest => exact ⟨_, Nat.le_succ _, rest⟩
  | insert _ rest => exact rest.of_cons
  | delete _ rest => exact rest.of_cons_right

/-- What an alignment does with two different first elements. -/
theorem cons_cases {a b : α} (hne : a ≠ b) (h : Alignment n (a :: xs) (b :: ys)) :
    ∃ k, n = k + 1 ∧ (Alignment k xs ys ∨ Alignment k (a :: xs) ys ∨ Alignment k xs (b :: ys)) := by
  cases h with
  | keep _ rest => exact absurd rfl hne
  | substitute _ _ rest => exact ⟨_, rfl, Or.inl rest⟩
  | insert _ rest => exact ⟨_, rfl, Or.inr (Or.inl rest)⟩
  | delete _ rest => exact ⟨_, rfl, Or.inr (Or.inr rest)⟩

/-- What does not occur on the right is not kept. -/
theorem countP_le {p : α → Bool} (h : Alignment n xs ys) (hys : ∀ b ∈ ys, p b = false) :
    xs.countP p ≤ n := by
  induction h with
  | nil => exact Nat.le_refl 0
  | keep a rest ih =>
    obtain ⟨ha, hys⟩ := List.forall_mem_cons.mp hys
    rw [List.countP_cons_of_neg (Bool.eq_false_iff.mp ha)]
    exact ih hys
  | substitute a b rest ih =>
    have hrest := ih (List.forall_mem_cons.mp hys).2
    rw [List.countP_cons]
    split <;> omega
  | insert b rest ih => exact Nat.le_succ_of_le (ih (List.forall_mem_cons.mp hys).2)
  | delete a rest ih =>
    have hrest := ih hys
    rw [List.countP_cons]
    split <;> omega

/-- What does not pass a test is deleted. -/
theorem filter (p : α → Bool) (xs : List α) :
    Alignment (xs.countP fun a => !p a) xs (xs.filter p) := by
  induction xs with
  | nil => exact nil
  | cons a xs ih =>
    cases ha : p a with
    | true =>
      rw [List.filter_cons_of_pos ha, List.countP_cons_of_neg (by simp [ha])]
      exact keep a ih
    | false =>
      rw [List.filter_cons_of_neg (Bool.eq_false_iff.mp ha), List.countP_cons_of_pos (by simp [ha])]
      exact delete a ih

theorem map {β : Type u} (f : α → β) (h : Alignment n xs ys) :
    Alignment n (xs.map f) (ys.map f) := by
  induction h with
  | nil => exact nil
  | keep a rest ih => exact keep (f a) ih
  | substitute a b rest ih => exact substitute (f a) (f b) ih
  | insert b rest ih => exact insert (f b) ih
  | delete a rest ih => exact delete (f a) ih

theorem of_map {β : Type u} {f : α → β} (hf : Function.Injective f)
    (h : Alignment n (xs.map f) (ys.map f)) : Alignment n xs ys := by
  generalize hus : xs.map f = us at h
  generalize hvs : ys.map f = vs at h
  induction h generalizing xs ys with
  | nil =>
    rw [List.map_eq_nil_iff.mp hus, List.map_eq_nil_iff.mp hvs]
    exact nil
  | keep c rest ih =>
    obtain ⟨a, xs, rfl, rfl, hxs⟩ := List.map_eq_cons_iff.mp hus
    obtain ⟨b, ys, rfl, hb, hys⟩ := List.map_eq_cons_iff.mp hvs
    obtain rfl := hf hb
    exact keep b (ih hxs hys)
  | substitute c d rest ih =>
    obtain ⟨a, xs, rfl, -, hxs⟩ := List.map_eq_cons_iff.mp hus
    obtain ⟨b, ys, rfl, -, hys⟩ := List.map_eq_cons_iff.mp hvs
    exact substitute a b (ih hxs hys)
  | insert d rest ih =>
    obtain ⟨b, ys, rfl, -, hys⟩ := List.map_eq_cons_iff.mp hvs
    exact insert b (ih hus hys)
  | delete c rest ih =>
    obtain ⟨a, xs, rfl, -, hxs⟩ := List.map_eq_cons_iff.mp hus
    exact delete a (ih hxs hvs)

end Alignment

/-! ## Alignments and edits -/

theorem Edit.cons (a : α) (h : Edit xs ys) : Edit (a :: xs) (a :: ys) := by
  cases h with
  | insert pre b post => exact insert (a :: pre) b post
  | delete pre b post => exact delete (a :: pre) b post
  | substitute pre b c post => exact substitute (a :: pre) b c post

theorem Edits.cons (a : α) (h : Edits n xs ys) : Edits n (a :: xs) (a :: ys) := by
  induction h with
  | none xs => exact none (a :: xs)
  | step first rest ih => exact step (first.cons a) ih

/-- The edits of an alignment, from left to right. -/
theorem edits_of_alignment (h : Alignment n xs ys) : Edits n xs ys := by
  induction h with
  | nil => exact Edits.none []
  | keep a rest ih => exact ih.cons a
  | substitute a b rest ih => exact Edits.step (Edit.substitute [] a b _) (ih.cons b)
  | insert b rest ih => exact Edits.step (Edit.insert [] b _) (ih.cons b)
  | delete a rest ih => exact Edits.step (Edit.delete [] a _) ih

theorem Edit.alignment (h : Edit xs ys) : Alignment 1 xs ys := by
  cases h with
  | insert pre a post =>
    simpa using (Alignment.refl pre).append (Alignment.insert a (Alignment.refl post))
  | delete pre a post =>
    simpa using (Alignment.refl pre).append (Alignment.delete a (Alignment.refl post))
  | substitute pre a b post =>
    simpa using (Alignment.refl pre).append (Alignment.substitute a b (Alignment.refl post))

/-- Edits that come in any order cost as much as an alignment or more. -/
theorem alignment_of_edits (h : Edits n xs ys) : ∃ k ≤ n, Alignment k xs ys := by
  induction h with
  | none xs => exact ⟨0, Nat.le_refl 0, Alignment.refl xs⟩
  | step first rest ih =>
    obtain ⟨k, hk, hrest⟩ := ih
    obtain ⟨k', hk', hall⟩ := first.alignment.trans hrest
    exact ⟨k', by omega, hall⟩

/-! ## The distance -/

/-- Some alignment has the distance as its cost. -/
theorem levenshtein_alignment (xs ys : List α) : Alignment (levenshtein xs ys) xs ys := by
  have hall : Alignment (xs.length + ys.length) xs ys := by
    simpa using (Alignment.of_nil xs).append (Alignment.nil_of ys)
  have hmem : levenshtein xs ys ∈ {n | Edits n xs ys} :=
    Nat.sInf_mem ⟨_, edits_of_alignment hall⟩
  obtain ⟨k, hk, halignment⟩ := alignment_of_edits hmem
  have hle : levenshtein xs ys ≤ k := Nat.sInf_le (edits_of_alignment halignment)
  rwa [Nat.le_antisymm hle hk]

theorem levenshtein_le (h : Alignment n xs ys) : levenshtein xs ys ≤ n :=
  Nat.sInf_le (edits_of_alignment h)

@[simp] theorem levenshtein_nil_left (ys : List α) : levenshtein [] ys = ys.length := by
  refine Nat.le_antisymm (levenshtein_le (Alignment.nil_of ys)) ?_
  simpa using (levenshtein_alignment [] ys).length_le.2

@[simp] theorem levenshtein_nil_right (xs : List α) : levenshtein xs [] = xs.length := by
  refine Nat.le_antisymm (levenshtein_le (Alignment.of_nil xs)) ?_
  simpa using (levenshtein_alignment xs []).length_le.1

theorem levenshtein_reverse (xs ys : List α) :
    levenshtein xs.reverse ys.reverse = levenshtein xs ys := by
  refine Nat.le_antisymm (levenshtein_le (levenshtein_alignment xs ys).reverse) ?_
  have h := (levenshtein_alignment xs.reverse ys.reverse).reverse
  rw [List.reverse_reverse, List.reverse_reverse] at h
  exact levenshtein_le h

/-- Renaming the elements changes nothing. -/
theorem levenshtein_map {β : Type u} {f : α → β} (hf : Function.Injective f) (xs ys : List α) :
    levenshtein (xs.map f) (ys.map f) = levenshtein xs ys :=
  Nat.le_antisymm (levenshtein_le ((levenshtein_alignment xs ys).map f))
    (levenshtein_le ((levenshtein_alignment (xs.map f) (ys.map f)).of_map hf))

theorem levenshtein_cons_self (a : α) (xs ys : List α) :
    levenshtein (a :: xs) (a :: ys) = levenshtein xs ys := by
  refine Nat.le_antisymm (levenshtein_le (.keep a (levenshtein_alignment xs ys))) ?_
  obtain ⟨k, hk, h⟩ := (levenshtein_alignment (a :: xs) (a :: ys)).of_cons_self
  exact Nat.le_trans (levenshtein_le h) hk

theorem levenshtein_cons {a b : α} (hne : a ≠ b) (xs ys : List α) :
    levenshtein (a :: xs) (b :: ys) =
      min (min (levenshtein (a :: xs) ys) (levenshtein xs (b :: ys))) (levenshtein xs ys) + 1 := by
  have hsubstitute := levenshtein_le (.substitute a b (levenshtein_alignment xs ys))
  have hinsert := levenshtein_le (.insert b (levenshtein_alignment (a :: xs) ys))
  have hdelete := levenshtein_le (.delete a (levenshtein_alignment xs (b :: ys)))
  obtain ⟨k, hk, hcases⟩ := (levenshtein_alignment (a :: xs) (b :: ys)).cons_cases hne
  rcases hcases with h | h | h
  · have hle := levenshtein_le h
    omega
  · have hle := levenshtein_le h
    omega
  · have hle := levenshtein_le h
    omega

/-- **The same last element**: it is kept. -/
theorem levenshtein_concat_self (xs ys : List α) (a : α) :
    levenshtein (xs ++ [a]) (ys ++ [a]) = levenshtein xs ys := by
  rw [← levenshtein_reverse, ← levenshtein_reverse xs ys]
  simpa using levenshtein_cons_self a xs.reverse ys.reverse

/-- **Different last elements**: one of them goes, or both are exchanged. -/
theorem levenshtein_concat {a b : α} (hne : a ≠ b) (xs ys : List α) :
    levenshtein (xs ++ [a]) (ys ++ [b]) =
      min (min (levenshtein (xs ++ [a]) ys) (levenshtein xs (ys ++ [b]))) (levenshtein xs ys) + 1 := by
  rw [← levenshtein_reverse, ← levenshtein_reverse (xs ++ [a]) ys,
    ← levenshtein_reverse xs (ys ++ [b]), ← levenshtein_reverse xs ys]
  simpa using levenshtein_cons hne xs.reverse ys.reverse

end Levenshtein
