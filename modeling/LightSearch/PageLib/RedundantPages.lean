import LightSearch.Lib.Greedy
import LightSearch.Lib.Run
import LightSearch.PageLib.PageLibPreprocessor
import LightSearch.PageLib.Simhasher

/-!
# The redundant pages

`cutRedundantPages` goes through the list of pages with two iterators. The slow one stands on a page
that stays, the fast one goes on from there and erases each page whose fingerprint is near. An
iterator is the place it stands on: what is erased stands behind the slow one, and the fast one
stands on the page behind the erased one afterwards.

The list that is left is what the greedy filter keeps (`cutRedundantFrom_eq`).
-/

set_option autoImplicit false

namespace LightSearch

open Cxx Simhash

/-- A page with `_u`, its fingerprint. -/
structure HashedPage extends WebPage where
  u : BitVec 64

/-- The inner loop: the pages from `fast` on that are near the page at `slow` are erased. -/
def eraseFrom (slow fast : Nat) (pageLib : List HashedPage) : Except Fault (List HashedPage) :=
  if h : fast < pageLib.length then
    match pageLib[slow]? with
    | none => .error .danglingIterator
    | some page =>
      if isEqual pageLib[fast].u page.u 3 then
        have : (pageLib.eraseIdx fast).length - fast < pageLib.length - fast := by
          rw [List.length_eraseIdx_of_lt h]
          omega
        eraseFrom slow fast (pageLib.eraseIdx fast)
      else eraseFrom slow (fast + 1) pageLib
  else .ok pageLib
termination_by pageLib.length - fast

/-- Erasing makes no list longer. -/
theorem length_eraseFrom {slow fast : Nat} {pageLib pages : List HashedPage}
    (h : eraseFrom slow fast pageLib = .ok pages) : pages.length ≤ pageLib.length := by
  induction fast, pageLib using eraseFrom.induct slow with
  | case1 fast pageLib hlt hnone =>
    rw [eraseFrom, dif_pos hlt, hnone] at h
    cases h
  | case2 fast pageLib hlt page hpage hnear _ ih =>
    rw [eraseFrom, dif_pos hlt, hpage] at h
    dsimp only at h
    rw [if_pos hnear] at h
    exact (ih h).trans (List.length_eraseIdx_le _ _)
  | case3 fast pageLib hlt page hpage hfar ih =>
    rw [eraseFrom, dif_pos hlt, hpage] at h
    dsimp only at h
    rw [if_neg hfar] at h
    exact ih h
  | case4 fast pageLib hend =>
    rw [eraseFrom, dif_neg hend] at h
    rw [Except.ok.inj h]

/-- The outer loop from `slow` on. -/
def cutRedundantFrom (slow : Nat) (pageLib : List HashedPage) : Except Fault (List HashedPage) :=
  if h : slow < pageLib.length then
    match herase : eraseFrom slow (slow + 1) pageLib with
    | .error e => .error e
    | .ok pages =>
      have : pages.length - (slow + 1) < pageLib.length - slow := by
        have hle := length_eraseFrom herase
        omega
      cutRedundantFrom (slow + 1) pages
  else .ok pageLib
termination_by pageLib.length - slow

def cutRedundantPages (pageLib : List HashedPage) : Except Fault (List HashedPage) :=
  cutRedundantFrom 0 pageLib

/-! ## The two loops -/

/-- Two pages that count as one. -/
def near (page other : HashedPage) : Bool := isEqual page.u other.u 3

/-- The inner loop: the pages before `fast` stay, and of the others those that are near go. -/
theorem eraseFrom_eq {slow : Nat} {page : HashedPage} {front : List HashedPage}
    (hslow : front[slow]? = some page) (rest : List HashedPage) :
    eraseFrom slow front.length (front ++ rest) =
      .ok (front ++ rest.filter fun fast => !near fast page) := by
  induction rest generalizing front with
  | nil =>
    rw [eraseFrom, dif_neg (by simp)]
    rfl
  | cons fast rest ih =>
    have hlt : front.length < (front ++ fast :: rest).length := by simp
    have hpage : (front ++ fast :: rest)[slow]? = some page := by
      rw [List.getElem?_append_left (List.getElem?_eq_some_iff.mp hslow).1, hslow]
    have hfast : (front ++ fast :: rest)[front.length] = fast := by simp
    rw [eraseFrom, dif_pos hlt, hpage]
    dsimp only
    rw [hfast, List.filter_cons]
    by_cases hnear : isEqual fast.u page.u 3 = true
    · have herase : (front ++ fast :: rest).eraseIdx front.length = front ++ rest := by
        rw [List.eraseIdx_append_of_length_le (Nat.le_refl _), Nat.sub_self, List.eraseIdx_cons_zero]
      rw [if_pos hnear, herase, ih hslow, if_neg (by simp [near, hnear])]
    · have hstays : (front ++ [fast])[slow]? = some page := by
        rw [List.getElem?_append_left (List.getElem?_eq_some_iff.mp hslow).1, hslow]
      have hnext := ih hstays
      rw [List.length_append, List.length_singleton, List.append_assoc, List.append_assoc,
        List.singleton_append, List.singleton_append] at hnext
      rw [if_neg hnear, hnext, if_pos (by simpa [near] using hnear)]

/-- **The outer loop keeps what the greedy filter keeps** of the pages from `slow` on. -/
theorem cutRedundantFrom_eq (before rest : List HashedPage) :
    cutRedundantFrom before.length (before ++ rest) = .ok (before ++ Greedy.keep near rest) := by
  induction hn : rest.length using Nat.strongRecOn generalizing before rest with
  | ind n ih =>
    cases rest with
    | nil =>
      rw [cutRedundantFrom, dif_neg (by simp)]
      rfl
    | cons page rest =>
      have hlt : before.length < (before ++ page :: rest).length := by simp
      have hslow : (before ++ [page])[before.length]? = some page := by simp
      have hinner := eraseFrom_eq hslow rest
      rw [List.length_append, List.length_singleton, List.append_assoc, List.append_assoc,
        List.singleton_append, List.singleton_append] at hinner
      have hshort : (rest.filter fun fast => !near fast page).length < n := by
        rw [← hn]
        exact Nat.lt_succ_of_le (List.length_filter_le _ _)
      have hrest := ih _ hshort (before ++ [page]) _ rfl
      rw [List.length_append, List.length_singleton, List.append_assoc, List.append_assoc,
        List.singleton_append, List.singleton_append] at hrest
      rw [cutRedundantFrom, dif_pos hlt]
      split
      next e herror =>
        rw [hinner] at herror
        cases herror
      next pages hpages =>
        obtain rfl := Except.ok.inj (hinner.symm.trans hpages)
        rw [hrest, Greedy.keep_cons]

/-- **Page de-duplication.** The loops end, without a fault, with the pages that the greedy filter
keeps: pages in their order, the first of them among them, no two within distance 3, and all of them
when they run again. Of the places in the list those are kept from which each kept place before is
farther than that, so before a place that is not kept stands a kept one that is near. -/
theorem cutRedundantPages_greedy (pageLib : List HashedPage) :
    ∃ pages, cutRedundantPages pageLib = .ok pages ∧
      pages = Greedy.keep (fun page other => distance page.u other.u ≤ 3) pageLib ∧
      pages.Sublist pageLib ∧ pages.head? = pageLib.head? ∧
      pages.Pairwise (fun page other => 3 < distance page.u other.u) ∧
      (∃ places : List Nat, pages = places.filterMap (pageLib[·]?) ∧ places.Pairwise (· < ·) ∧
        (∀ i ∈ places, i < pageLib.length) ∧
        ∀ i page, pageLib[i]? = some page →
          (i ∈ places ↔ ∀ j ∈ places, j < i → ∀ kept, pageLib[j]? = some kept →
            3 < distance page.u kept.u) ∧
          (i ∉ places → ∃ j ∈ places, j < i ∧ ∃ kept, pageLib[j]? = some kept ∧
            distance page.u kept.u ≤ 3)) ∧
      cutRedundantPages pages = .ok pages := by
  have hnear : near = fun page other => decide (distance page.u other.u ≤ 3) := by
    ext page other
    rw [Bool.eq_iff_iff, near, isEqual_iff, decide_eq_true_iff]
  have hfar : ∀ page other, near page other = false ↔ 3 < distance page.u other.u := by
    intro page other
    simp [hnear]
  have hcut : ∀ pages, cutRedundantPages pages = .ok (Greedy.keep near pages) :=
    cutRedundantFrom_eq []
  obtain ⟨places, hplaces, hsorted, hbound, hkept⟩ := @Greedy.keep_places _ near pageLib
  refine ⟨_, hcut pageLib, by rw [hnear], Greedy.keep_sublist pageLib, Greedy.head_keep pageLib, ?_,
    ⟨places, hplaces, hsorted, hbound, ?_⟩, ?_⟩
  · refine (Greedy.keep_pairwise pageLib).imp fun {page other} h => ?_
    rw [distance_comm]
    exact (hfar other page).mp h
  · intro i page hpage
    have hiff := hkept i page hpage
    simp only [hfar] at hiff
    refine ⟨hiff, fun hgone => ?_⟩
    by_contra hnone
    refine hgone (hiff.mpr fun j hj hji kept hget => ?_)
    by_contra hclose
    exact hnone ⟨j, hj, hji, kept, hget, Nat.le_of_not_lt hclose⟩
  · rw [hcut, Greedy.keep_keep]

end LightSearch
