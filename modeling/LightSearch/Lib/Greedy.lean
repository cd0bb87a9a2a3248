import Mathlib.Data.List.Basic
import Mathlib.Data.List.Pairwise
import Mathlib.Data.List.Induction

/-!
# The greedy filter

Given a relation of being near, which need not be transitive, the greedy filter goes through a list
and keeps an element when none that it kept before is near it. What is kept depends on the order of
the list.

`keep_cons` is the other way to compute it: keep the first element, drop what is near it, and go on
with the rest. `keep_places` says which places are kept: exactly those that are far from each kept
place before them.
-/

set_option autoImplicit false

universe u

namespace Greedy

variable {α : Type u}

/-- One more element: it is kept unless it is near one that was. -/
def keepOne (near : α → α → Bool) (kept : List α) (a : α) : List α :=
  if kept.any (near a) then kept else kept ++ [a]

/-- The elements that are kept. -/
def keep (near : α → α → Bool) (l : List α) : List α := l.foldl (keepOne near) []

variable {near : α → α → Bool}

@[simp] theorem keep_nil : keep near [] = [] := rfl

theorem keep_concat (l : List α) (a : α) : keep near (l ++ [a]) = keepOne near (keep near l) a := by
  simp [keep]

theorem foldl_keepOne (kept l : List α) :
    l.foldl (keepOne near) kept = kept ++ keep near (l.filter fun a => !kept.any (near a)) := by
  induction hn : l.length using Nat.strongRecOn generalizing kept l with
  | ind n ih =>
    cases l with
    | nil => simp
    | cons a l =>
      have hlt : l.length < n := by
        rw [← hn]
        exact Nat.lt_succ_self _
      rw [List.foldl_cons, List.filter_cons]
      by_cases hnear : kept.any (near a) = true
      · rw [keepOne, if_pos hnear, if_neg (by simp [hnear])]
        exact ih _ hlt kept l rfl
      · have hshort := Nat.lt_of_le_of_lt (List.length_filter_le (fun b => !kept.any (near b)) l) hlt
        have hcons := ih _ hshort [a] (l.filter fun b => !kept.any (near b)) rfl
        rw [keepOne, if_neg hnear, if_pos (by simpa using hnear), ih _ hlt (kept ++ [a]) l rfl,
          List.append_assoc]
        congr 1
        have hfirst : keep near (a :: l.filter fun b => !kept.any (near b)) =
            (l.filter fun b => !kept.any (near b)).foldl (keepOne near) [a] := rfl
        rw [hfirst, hcons, List.filter_filter]
        congr 2
        refine List.filter_congr fun b _ => ?_
        simp [Bool.and_comm]

/-- **The first element is kept, and what is near it is dropped.** -/
theorem keep_cons (a : α) (l : List α) :
    keep near (a :: l) = a :: keep near (l.filter fun b => !near b a) := by
  rw [keep, List.foldl_cons, foldl_keepOne]
  simp [keepOne]

theorem keep_sublist (l : List α) : (keep near l).Sublist l := by
  induction l using List.reverseRecOn with
  | nil => exact List.Sublist.refl []
  | append_singleton l a ih =>
    rw [keep_concat, keepOne]
    split
    · exact ih.trans (List.sublist_append_left l [a])
    · exact ih.append (List.Sublist.refl [a])

theorem head_keep (l : List α) : (keep near l).head? = l.head? := by
  cases l with
  | nil => rfl
  | cons a l => rw [keep_cons, List.head?_cons, List.head?_cons]

/-- No kept element is near one that was kept before it. -/
theorem keep_pairwise (l : List α) : (keep near l).Pairwise fun a b => near b a = false := by
  induction l using List.reverseRecOn with
  | nil => exact List.Pairwise.nil
  | append_singleton l a ih =>
    rw [keep_concat, keepOne]
    split
    · exact ih
    next hnear =>
      refine List.pairwise_append.mpr ⟨ih, List.pairwise_singleton _ a, fun b hb c hc => ?_⟩
      rw [List.mem_singleton.mp hc]
      simp only [List.any_eq_true, not_exists, not_and, Bool.not_eq_true] at hnear
      exact hnear b hb

/-- A list without near elements is kept as it is. -/
theorem keep_of_pairwise {l : List α} (h : l.Pairwise fun a b => near b a = false) :
    keep near l = l := by
  induction l with
  | nil => rfl
  | cons a l ih =>
    obtain ⟨hfirst, hrest⟩ := List.pairwise_cons.mp h
    have hall : (l.filter fun b => !near b a) = l := by
      refine List.filter_eq_self.mpr fun b hb => ?_
      rw [hfirst b hb, Bool.not_false]
    rw [keep_cons, hall, ih hrest]

/-- Filtering again changes nothing. -/
theorem keep_keep (l : List α) : keep near (keep near l) = keep near l :=
  keep_of_pairwise (keep_pairwise l)

/-- **Which places are kept.** The places of the kept elements, in order: a place is one of them
exactly when no kept place before it is near it. -/
theorem keep_places (l : List α) :
    ∃ places : List Nat, keep near l = places.filterMap (l[·]?) ∧ places.Pairwise (· < ·) ∧
      (∀ i ∈ places, i < l.length) ∧
      ∀ i a, l[i]? = some a →
        (i ∈ places ↔ ∀ j ∈ places, j < i → ∀ b, l[j]? = some b → near a b = false) := by
  induction l using List.reverseRecOn with
  | nil => exact ⟨[], rfl, List.Pairwise.nil, by simp, by simp⟩
  | append_singleton l a ih =>
    obtain ⟨places, hkeep, hsorted, hbound, hplaces⟩ := ih
    have hbefore : ∀ j ∈ places, (l ++ [a])[j]? = l[j]? := fun j hj =>
      List.getElem?_append_left (hbound j hj)
    have hsame : places.filterMap ((l ++ [a])[·]?) = keep near l := by
      rw [hkeep]
      exact List.filterMap_congr hbefore
    -- whether the last element is near one that was kept
    have hnear : (keep near l).any (near a) = false ↔
        ∀ j ∈ places, j < l.length → ∀ b, (l ++ [a])[j]? = some b → near a b = false := by
      rw [hkeep, List.any_eq_false]
      constructor
      · intro h j hj _ b hb
        rw [hbefore j hj] at hb
        simpa using h b (List.mem_filterMap.mpr ⟨j, hj, hb⟩)
      · intro h b hb
        obtain ⟨j, hj, hget⟩ := List.mem_filterMap.mp hb
        simpa using h j hj (hbound j hj) b (by rw [hbefore j hj, hget])
    have hold : ∀ i b, i < l.length → (l ++ [a])[i]? = some b →
        (i ∈ places ↔ ∀ j ∈ places, j < i → ∀ c, (l ++ [a])[j]? = some c → near b c = false) := by
      intro i b hi hb
      rw [List.getElem?_append_left hi] at hb
      rw [hplaces i b hb]
      refine forall₂_congr fun j hj => ?_
      rw [hbefore j hj]
    have hlast : ∀ i b, ¬ i < l.length → (l ++ [a])[i]? = some b → i = l.length ∧ a = b := by
      intro i b hi hb
      have hbound : i < (l ++ [a]).length := (List.getElem?_eq_some_iff.mp hb).1
      simp only [List.length_append, List.length_singleton] at hbound
      obtain rfl : i = l.length := by omega
      simpa using hb
    rw [keep_concat, keepOne]
    split
    next hany =>
      refine ⟨places, hsame.symm, hsorted, fun i hi => ?_, fun i b hb => ?_⟩
      · simpa using Nat.lt_succ_of_lt (hbound i hi)
      · by_cases hi : i < l.length
        · exact hold i b hi hb
        · obtain ⟨rfl, rfl⟩ := hlast i b hi hb
          refine ⟨fun hmem => absurd (hbound _ hmem) hi, fun h => ?_⟩
          rw [hnear.mpr h] at hany
          cases hany
    next hany =>
      refine ⟨places ++ [l.length], ?_, ?_, fun i hi => ?_, fun i b hb => ?_⟩
      · simp [List.filterMap_append, hsame]
      · refine List.pairwise_append.mpr ⟨hsorted, List.pairwise_singleton _ _, ?_⟩
        simpa using hbound
      · rcases List.mem_append.mp hi with hi | hi
        · simpa using Nat.lt_succ_of_lt (hbound i hi)
        · simp [List.mem_singleton.mp hi]
      · have hlater : ∀ j ∈ places ++ [l.length], j < i → j ∈ places := by
          intro j hj hji
          have hbound : i < (l ++ [a]).length := (List.getElem?_eq_some_iff.mp hb).1
          simp only [List.length_append, List.length_singleton] at hbound
          refine (List.mem_append.mp hj).resolve_right fun h => ?_
          rw [List.mem_singleton.mp h] at hji
          omega
        by_cases hi : i < l.length
        · have hmem : i ∈ places ++ [l.length] ↔ i ∈ places := by
            simp [Nat.ne_of_lt hi]
          rw [hmem, hold i b hi hb]
          exact ⟨fun h j hj hji => h j (hlater j hj hji) hji,
            fun h j hj => h j (List.mem_append_left _ hj)⟩
        · obtain ⟨rfl, rfl⟩ := hlast i b hi hb
          refine ⟨fun _ j hj hji => ?_, fun _ => List.mem_append_right _ List.mem_cons_self⟩
          exact hnear.mp (by simpa using hany) j (hlater j hj hji) hji

end Greedy
