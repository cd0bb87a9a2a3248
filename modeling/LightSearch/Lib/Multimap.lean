import Mathlib.Data.List.Induction
import Mathlib.Data.List.Sort
import Mathlib.Order.Defs.LinearOrder

/-!
# Filling a multimap

A `std::multimap` keeps its elements in the order of their keys, and puts a new one behind those with
the same key. Inserting is `List.orderedInsert` for the comparison of the keys, and filling inserts
the elements of a list one after the other (`fill`).

When the comparison says that one key is greater than the other, of two elements the one with the
greater key comes first, and with the same key the one that was inserted first (`pair_fill_iff`).
-/

set_option autoImplicit false

universe u v

namespace Multimap

variable {α : Type u} (comp : α → α → Prop) [DecidableRel comp]

/-- The elements of a list in a multimap. -/
def fill (l : List α) : List α := l.foldl (fun m e => m.orderedInsert comp e) []

theorem fill_append (l : List α) (e : α) :
    fill comp (l ++ [e]) = (fill comp l).orderedInsert comp e :=
  List.foldl_append

theorem fill_perm (l : List α) : (fill comp l).Perm l := by
  induction l using List.reverseRecOn with
  | nil => exact List.Perm.refl _
  | append_singleton l e ih =>
    rw [fill_append]
    exact (List.perm_orderedInsert comp e _).trans
      ((ih.cons e).trans (List.perm_append_singleton e l).symm)

variable {comp} {K : Type v} [LinearOrder K] {key : α → K}

/-- Inserting keeps the keys in decreasing order. -/
theorem sorted_orderedInsert {m : List α} {e : α} (hcomp : ∀ x ∈ m, comp e x ↔ key x < key e)
    (hm : m.Pairwise fun x y => key y ≤ key x) :
    (m.orderedInsert comp e).Pairwise fun x y => key y ≤ key x := by
  induction m with
  | nil => exact List.pairwise_singleton _ e
  | cons x m ih =>
    obtain ⟨hx, hm'⟩ := List.pairwise_cons.mp hm
    have hfirst := hcomp x List.mem_cons_self
    rw [List.orderedInsert_cons]
    by_cases hlt : comp e x
    · rw [if_pos hlt]
      refine List.pairwise_cons.mpr ⟨fun y hy => ?_, hm⟩
      rcases List.mem_cons.mp hy with rfl | hy
      · exact (hfirst.mp hlt).le
      · exact (hx y hy).trans (hfirst.mp hlt).le
    · rw [if_neg hlt]
      refine List.pairwise_cons.mpr ⟨fun y hy => ?_, ih (fun y hy => hcomp y
        (List.mem_cons_of_mem _ hy)) hm'⟩
      rcases (List.mem_orderedInsert comp).mp hy with rfl | hy
      · exact le_of_not_gt fun h => hlt (hfirst.mpr h)
      · exact hx y hy

/-- A new element comes behind those with a key that is not smaller, and before the others. -/
theorem pair_orderedInsert {m : List α} {e : α} (hcomp : ∀ x ∈ m, comp e x ↔ key x < key e)
    (hm : m.Pairwise fun x y => key y ≤ key x) {a : α} (ha : a ∈ m) :
    (key e ≤ key a → [a, e].Sublist (m.orderedInsert comp e)) ∧
      (key a < key e → [e, a].Sublist (m.orderedInsert comp e)) := by
  induction m with
  | nil => exact absurd ha List.not_mem_nil
  | cons x m ih =>
    obtain ⟨hx, hm'⟩ := List.pairwise_cons.mp hm
    have hfirst := hcomp x List.mem_cons_self
    have hax : key a ≤ key x := by
      rcases List.mem_cons.mp ha with rfl | ha
      · exact le_refl _
      · exact hx a ha
    rw [List.orderedInsert_cons]
    by_cases hlt : comp e x
    · rw [if_pos hlt]
      refine ⟨fun hle => ?_, fun _ => List.cons_sublist_cons.mpr (List.singleton_sublist.mpr ha)⟩
      exact absurd (hfirst.mp hlt) (not_lt_of_ge (hle.trans hax))
    · rw [if_neg hlt]
      rcases List.mem_cons.mp ha with rfl | ha
      · refine ⟨fun _ => ?_, fun h => absurd (hfirst.mpr h) hlt⟩
        apply List.cons_sublist_cons.mpr
        exact List.singleton_sublist.mpr ((List.mem_orderedInsert comp).mpr (.inl rfl))
      · obtain ⟨hbehind, hbefore⟩ := ih (fun y hy => hcomp y (List.mem_cons_of_mem _ hy)) hm' ha
        exact ⟨fun h => (hbehind h).trans (List.sublist_cons_self _ _),
          fun h => (hbefore h).trans (List.sublist_cons_self _ _)⟩

/-- Where two elements of a list come in the multimap. -/
theorem pair_fill {l : List α} (hcomp : ∀ x ∈ l, ∀ y ∈ l, comp x y ↔ key y < key x) :
    ((fill comp l).Pairwise fun x y => key y ≤ key x) ∧
      ∀ a b, [a, b].Sublist l → (key b ≤ key a → [a, b].Sublist (fill comp l)) ∧
        (key a < key b → [b, a].Sublist (fill comp l)) := by
  induction l using List.reverseRecOn with
  | nil => exact ⟨List.Pairwise.nil, fun a b h => nomatch h⟩
  | append_singleton l e ih =>
    obtain ⟨hsorted, hpairs⟩ := ih fun x hx y hy =>
      hcomp x (List.mem_append_left _ hx) y (List.mem_append_left _ hy)
    have hnew : ∀ x ∈ fill comp l, comp e x ↔ key x < key e := fun x hx =>
      hcomp e (List.mem_append_right _ List.mem_cons_self) x
        (List.mem_append_left _ ((fill_perm comp l).mem_iff.mp hx))
    have hkeep : (fill comp l).Sublist ((fill comp l).orderedInsert comp e) :=
      List.sublist_orderedInsert (r := comp) e _
    rw [fill_append]
    refine ⟨sorted_orderedInsert hnew hsorted, fun a b hab => ?_⟩
    obtain ⟨l₁, l₂, heq, h₁, h₂⟩ := List.sublist_append_iff.mp hab
    cases l₂ with
    | nil =>
      -- both were there before
      rw [List.append_nil] at heq
      subst heq
      obtain ⟨hfirst, hsecond⟩ := hpairs a b h₁
      exact ⟨fun h => (hfirst h).trans hkeep, fun h => (hsecond h).trans hkeep⟩
    | cons c l₂ =>
      -- the second one is new
      have hlen := h₂.length_le
      have htotal := congrArg List.length heq
      rw [List.length_append, List.length_cons, List.length_cons, List.length_cons] at htotal
      rw [List.length_cons, List.length_singleton] at hlen
      obtain rfl : l₂ = [] := List.length_eq_zero_iff.mp (by omega)
      obtain rfl : c = e := List.mem_singleton.mp (List.singleton_sublist.mp h₂)
      obtain ⟨rfl, hb⟩ : l₁ = [a] ∧ b = c := by
        cases l₁ with
        | nil => cases heq
        | cons d l₁ =>
          obtain ⟨rfl, hrest⟩ := List.cons.inj heq
          cases l₁ with
          | nil => exact ⟨rfl, (List.cons.inj hrest).1⟩
          | cons _ _ =>
            rw [List.length_cons, List.length_cons] at htotal
            omega
      subst hb
      have ha : a ∈ fill comp l :=
        (fill_perm comp l).mem_iff.mpr (List.singleton_sublist.mp h₁)
      exact pair_orderedInsert hnew hsorted ha

/-- Of two elements of a list without repetitions, one comes first. -/
theorem pair_asymm {l : List α} (hl : l.Nodup) {a b : α} (hab : [a, b].Sublist l) :
    ¬ [b, a].Sublist l := by
  induction l with
  | nil => exact nomatch hab
  | cons x l ih =>
    obtain ⟨hx, hl'⟩ := List.nodup_cons.mp hl
    intro hba
    cases hab with
    | cons _ hab' =>
      cases hba with
      | cons _ hba' => exact ih hl' hab' hba'
      | cons_cons _ hba' =>
        exact hx (hab'.subset (List.mem_cons_of_mem _ List.mem_cons_self))
    | cons_cons _ hab' =>
      cases hba with
      | cons _ hba' => exact hx (hba'.subset (List.mem_cons_of_mem _ List.mem_cons_self))
      | cons_cons _ hba' => exact hx (List.singleton_sublist.mp hab')

/-- Of two elements of a list, one comes first. -/
theorem pair_total {l : List α} {a b : α} (ha : a ∈ l) (hb : b ∈ l) (hne : a ≠ b) :
    [a, b].Sublist l ∨ [b, a].Sublist l := by
  induction l with
  | nil => exact absurd ha List.not_mem_nil
  | cons x l ih =>
    rcases List.mem_cons.mp ha with rfl | ha
    · have hb : b ∈ l := (List.mem_cons.mp hb).resolve_left hne.symm
      exact .inl (List.cons_sublist_cons.mpr (List.singleton_sublist.mpr hb))
    · rcases List.mem_cons.mp hb with heq | hb
      · rw [heq]
        exact .inr (List.cons_sublist_cons.mpr (List.singleton_sublist.mpr ha))
      · exact (ih ha hb).imp (fun h => h.trans (List.sublist_cons_self _ _))
          fun h => h.trans (List.sublist_cons_self _ _)

/-- **The order of a multimap**: the greater key first, and the one inserted first among equal
keys. -/
theorem pair_fill_iff {l : List α} (hl : l.Nodup)
    (hcomp : ∀ x ∈ l, ∀ y ∈ l, comp x y ↔ key y < key x) {a b : α} (ha : a ∈ l) (hb : b ∈ l)
    (hne : a ≠ b) :
    [a, b].Sublist (fill comp l) ↔ key b < key a ∨ key b = key a ∧ [a, b].Sublist l := by
  have hnodup : (fill comp l).Nodup := ((fill_perm comp l).nodup_iff).mpr hl
  obtain ⟨-, hpairs⟩ := pair_fill hcomp
  constructor
  · intro hfill
    rcases lt_trichotomy (key b) (key a) with hlt | heq | hlt
    · exact .inl hlt
    · refine .inr ⟨heq, (pair_total ha hb hne).resolve_right fun hba => ?_⟩
      exact pair_asymm hnodup hfill ((hpairs b a hba).1 heq.ge)
    · exfalso
      apply pair_asymm hnodup hfill
      rcases pair_total ha hb hne with hab | hba
      · exact (hpairs a b hab).2 hlt
      · exact (hpairs b a hba).1 hlt.le
  · rintro (hlt | ⟨heq, hab⟩)
    · rcases pair_total ha hb hne with hab | hba
      · exact (hpairs a b hab).1 hlt.le
      · exact (hpairs b a hba).2 hlt
    · exact (hpairs a b hab).1 heq.le

end Multimap
