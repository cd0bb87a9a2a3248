import Mathlib.Data.List.Nodup
import LightSearch.Lib.Run

/-!
# Binary heaps

The heap of the C++ library: an array in which no element goes behind the one at its parent, and a
function object that tells of two elements whether the first goes behind the second. A new element
rises from the end. When the first element is taken, the last one sinks to a leaf, each time past the
better child, and rises from there.

The function object can fail, and nothing is asked of it on two equal elements (`Compares`). In a heap
of different elements it is never called on two equal ones: each operation succeeds (`push_ok`,
`pop_ok`), and the elements come in their order (`drain_eq`).
-/

set_option autoImplicit false

universe u

namespace Heap

variable {α : Type} {ε : Type u}

/-- The place above a place. -/
def parent (i : Nat) : Nat := (i - 1) / 2

theorem parent_lt {i : Nat} (h : 0 < i) : parent i < i := by
  unfold parent
  omega

/-- `__push_heap`: the element at the hole rises past each parent that goes behind it. -/
def siftUp (comp : α → α → Except ε Bool) (heap : Array α) (hole : Nat) (h : hole < heap.size) :
    Except ε (Array α) :=
  if hpos : 0 < hole then
    have habove : parent hole < hole := parent_lt hpos
    do
      if ← comp heap[parent hole] heap[hole] then
        siftUp comp (heap.swap (parent hole) hole) (parent hole) (by rw [Array.size_swap]; omega)
      else .ok heap
  else .ok heap
termination_by hole

/-- `__adjust_heap`: the element at the hole sinks to a leaf, and rises from there. -/
def siftDown (comp : α → α → Except ε Bool) (heap : Array α) (hole : Nat) (h : hole < heap.size) :
    Except ε (Array α) :=
  if hright : 2 * hole + 2 < heap.size then do
    if ← comp heap[2 * hole + 2] heap[2 * hole + 1] then
      siftDown comp (heap.swap hole (2 * hole + 1)) (2 * hole + 1) (by rw [Array.size_swap]; omega)
    else
      siftDown comp (heap.swap hole (2 * hole + 2)) (2 * hole + 2) (by rw [Array.size_swap]; omega)
  else if hleft : 2 * hole + 1 < heap.size then
    siftUp comp (heap.swap hole (2 * hole + 1)) (2 * hole + 1) (by rw [Array.size_swap]; omega)
  else siftUp comp heap hole h
termination_by heap.size - hole
decreasing_by all_goals rw [Array.size_swap]; omega

/-- `push`: `push_back` and `push_heap`. -/
def push (comp : α → α → Except ε Bool) (heap : Array α) (a : α) : Except ε (Array α) :=
  siftUp comp (heap.push a) heap.size (by rw [Array.size_push]; omega)

/-- `pop`: `pop_heap` and `pop_back`. -/
def pop (comp : α → α → Except ε Bool) (heap : Array α) : Except ε (Array α) :=
  if h : 1 < heap.size then
    siftDown comp (heap.swap 0 (heap.size - 1)).pop 0
      (by rw [Array.size_pop, Array.size_swap]; omega)
  else .ok heap.pop

/-- A total order of elements, and a function that decides it for two different ones. -/
structure Compares (behind : α → α → Prop) (comp : α → α → Except ε Bool) : Prop where
  irrefl : ∀ a, ¬ behind a a
  trans : ∀ a b c, behind a b → behind b c → behind a c
  total : ∀ a b, a ≠ b → behind a b ∨ behind b a
  decides : ∀ a b, a ≠ b → ∃ answer, comp a b = .ok answer ∧ (answer = true ↔ behind a b)

/-- No element goes behind one at a place below it. -/
def IsHeap (behind : α → α → Prop) (heap : Array α) : Prop :=
  ∀ i (_ : parent i < heap.size) (_ : i < heap.size), 0 < i → ¬ behind heap[parent i] heap[i]

/-- While an element rises: the heap is one but for the parent of the hole, which goes before all that
is at and below the hole but for the rising element. -/
structure Rising (behind : α → α → Prop) (heap : Array α) (hole : Nat) : Prop where
  others : ∀ i (_ : parent i < heap.size) (_ : i < heap.size), 0 < i → i ≠ hole →
    ¬ behind heap[parent i] heap[i]
  across : ∀ i (_ : parent hole < heap.size) (_ : i < heap.size), 0 < i → parent i = hole →
    0 < hole → ¬ behind heap[parent hole] heap[i]

/-- While an element sinks, it can go behind those below it too. -/
structure Sinking (behind : α → α → Prop) (heap : Array α) (hole : Nat) : Prop where
  others : ∀ i (_ : parent i < heap.size) (_ : i < heap.size), 0 < i → i ≠ hole → parent i ≠ hole →
    ¬ behind heap[parent i] heap[i]
  across : ∀ i (_ : parent hole < heap.size) (_ : i < heap.size), 0 < i → parent i = hole →
    0 < hole → ¬ behind heap[parent hole] heap[i]

variable {behind : α → α → Prop} {comp : α → α → Except ε Bool}

namespace Compares

variable (hcomp : Compares behind comp)

include hcomp

theorem asymm {a b : α} (h : behind a b) : ¬ behind b a :=
  fun hba => hcomp.irrefl a (hcomp.trans a b a h hba)

/-- Not going behind is transitive. -/
theorem not_trans {a b c : α} (hab : ¬ behind a b) (hbc : ¬ behind b c) : ¬ behind a c := by
  intro hac
  by_cases heq : a = b
  · exact hbc (heq ▸ hac)
  · have hba := (hcomp.total a b heq).resolve_left hab
    exact hbc (hcomp.trans b a c hba hac)

end Compares

/-- The rising element has found its place. -/
theorem Rising.isHeap {heap : Array α} {hole : Nat} (h : Rising behind heap hole)
    (hhole : ∀ (_ : parent hole < heap.size) (_ : hole < heap.size), 0 < hole →
      ¬ behind heap[parent hole] heap[hole]) :
    IsHeap behind heap := by
  intro i habove hi hpos
  by_cases heq : i = hole
  · subst heq
    exact hhole habove hi hpos
  · exact h.others i habove hi hpos heq

/-- The element rises past a parent that goes behind it. -/
theorem Rising.swap (hcomp : Compares behind comp) {heap : Array α} {hole : Nat}
    (h : Rising behind heap hole) (habove : parent hole < heap.size) (hlt : hole < heap.size)
    (hpos : 0 < hole) (hbehind : behind heap[parent hole] heap[hole]) :
    Rising behind (heap.swap (parent hole) hole) (parent hole) := by
  have hasymm := hcomp.asymm hbehind
  have hup := parent_lt hpos
  refine ⟨fun i hparent hi hi0 hne => ?_, fun i hparent hi hi0 heq hhole => ?_⟩
  · rw [Array.size_swap] at hi hparent
    have hother := h.others i hparent hi hi0
    have hacross := h.across i habove hi hi0
    have hsibling := @Compares.not_trans _ _ _ _ hcomp heap[hole] heap[parent hole] heap[i] hasymm
    grind
  · rw [Array.size_swap] at hi hparent
    have hup' := parent_lt hhole
    have hother := h.others i (by omega) hi hi0
    have habove := h.others (parent hole) hparent (by omega) hhole (by omega)
    have htrans := @Compares.not_trans _ _ _ _ hcomp heap[parent (parent hole)]
      heap[parent hole] heap[i]
    grind

/-- The better child takes the place of the sinking element. -/
theorem Sinking.swap {heap : Array α} {hole child : Nat} (h : Sinking behind heap hole)
    (hchild : child < heap.size) (hpos : 0 < child) (hparent : parent child = hole)
    (hbest : ∀ i (_ : i < heap.size), 0 < i → parent i = hole → ¬ behind heap[child] heap[i]) :
    Sinking behind (heap.swap hole child (by have := parent_lt hpos; omega)) child := by
  have hlt := parent_lt hpos
  refine ⟨fun i habove hi hi0 hne hne' => ?_, fun i habove hi hi0 heq _ => ?_⟩
  · rw [Array.size_swap] at hi habove
    have hother := h.others i habove hi hi0
    have hbest := hbest i hi hi0
    have hacross := h.across child
    grind
  · rw [Array.size_swap] at hi habove
    have hother := h.others i (by omega) hi hi0
    have hi' := parent_lt hi0
    grind

/-- Different places of a heap of different elements. -/
theorem getElem_ne {heap : Array α} (hnodup : heap.toList.Nodup) {i j : Nat} (hi : i < heap.size)
    (hj : j < heap.size) (hne : i ≠ j) : heap[i] ≠ heap[j] := by
  intro heq
  rw [← Array.getElem_toList, ← Array.getElem_toList] at heq
  exact hne ((List.Nodup.getElem_inj_iff hnodup).mp heq)

theorem perm_swap (heap : Array α) {i j : Nat} (hi : i < heap.size) (hj : j < heap.size) :
    (heap.swap i j).toList.Perm heap.toList :=
  Array.perm_iff_toList_perm.mp (Array.swap_perm hi hj)

/-- **A rising element finds its place.** -/
theorem siftUp_ok (hcomp : Compares behind comp) {heap : Array α} {hole : Nat}
    (hlt : hole < heap.size) (hnodup : heap.toList.Nodup) (h : Rising behind heap hole) :
    ∃ heap', siftUp comp heap hole hlt = .ok heap' ∧ heap'.toList.Perm heap.toList ∧
      IsHeap behind heap' := by
  induction hole using Nat.strongRecOn generalizing heap with
  | ind hole ih =>
    rw [siftUp]
    by_cases hpos : 0 < hole
    · have hup := parent_lt hpos
      have habove : parent hole < heap.size := Nat.lt_trans hup hlt
      obtain ⟨answer, hok, hanswer⟩ :=
        hcomp.decides _ _ (getElem_ne hnodup habove hlt (Nat.ne_of_lt hup))
      rw [dif_pos hpos]
      simp only [hok, Except.ok_bind]
      by_cases hbehind : answer = true
      · rw [if_pos hbehind]
        have hperm := perm_swap heap habove hlt
        obtain ⟨heap', hsift, hperm', hheap⟩ := ih (parent hole) hup (by rw [Array.size_swap]; omega)
          (hperm.nodup_iff.mpr hnodup) (h.swap hcomp habove hlt hpos (hanswer.mp hbehind))
        exact ⟨heap', hsift, hperm'.trans hperm, hheap⟩
      · rw [if_neg hbehind]
        exact ⟨heap, rfl, List.Perm.refl _, h.isHeap fun _ _ _ hgoes => hbehind (hanswer.mpr hgoes)⟩
    · rw [dif_neg hpos]
      exact ⟨heap, rfl, List.Perm.refl _, h.isHeap fun _ _ hhole => absurd hhole hpos⟩

/-- An element that has sunk to a leaf rises. -/
theorem Sinking.rising {heap : Array α} {hole : Nat} (h : Sinking behind heap hole)
    (hleaf : heap.size ≤ 2 * hole + 1) : Rising behind heap hole := by
  refine ⟨fun i habove hi hpos hne => h.others i habove hi hpos hne ?_, h.across⟩
  unfold parent
  omega

/-- **A sinking element finds its place.** -/
theorem siftDown_ok (hcomp : Compares behind comp) {heap : Array α} {hole : Nat}
    (hlt : hole < heap.size) (hnodup : heap.toList.Nodup) (h : Sinking behind heap hole) :
    ∃ heap', siftDown comp heap hole hlt = .ok heap' ∧ heap'.toList.Perm heap.toList ∧
      IsHeap behind heap' := by
  induction hn : heap.size - hole using Nat.strongRecOn generalizing heap hole with
  | ind n ih =>
    -- the element sinks past a child that no child goes before
    have hsink : ∀ child (hchild : child < heap.size), 0 < child → parent child = hole →
        (∀ i (_ : i < heap.size), 0 < i → parent i = hole → ¬ behind heap[child] heap[i]) →
        Sinking behind (heap.swap hole child) child ∧
          (heap.swap hole child).toList.Perm heap.toList ∧
          (heap.swap hole child).size - child < n := by
      intro child hchild hpos hparent hbest
      have hbelow := parent_lt hpos
      refine ⟨h.swap hchild hpos hparent hbest, perm_swap heap hlt hchild, ?_⟩
      rw [Array.size_swap]
      omega
    have hchildren : ∀ i, 0 < i → parent i = hole → i = 2 * hole + 1 ∨ i = 2 * hole + 2 := by
      intro i hpos hparent
      unfold parent at hparent
      omega
    have hleft : parent (2 * hole + 1) = hole := by
      unfold parent
      omega
    have hright : parent (2 * hole + 2) = hole := by
      unfold parent
      omega
    rw [siftDown]
    by_cases htwo : 2 * hole + 2 < heap.size
    · rw [dif_pos htwo]
      have hone : 2 * hole + 1 < heap.size := Nat.lt_of_succ_lt htwo
      obtain ⟨answer, hok, hanswer⟩ :=
        hcomp.decides _ _ (getElem_ne hnodup htwo hone (Nat.succ_ne_self _))
      simp only [hok, Except.ok_bind]
      by_cases hbehind : answer = true
      · rw [if_pos hbehind]
        obtain ⟨hnext, hperm, hshort⟩ := hsink (2 * hole + 1) hone (by omega) hleft (by
          intro i hi hpos hparent
          rcases hchildren i hpos hparent with rfl | rfl
          · exact hcomp.irrefl _
          · exact hcomp.asymm (hanswer.mp hbehind))
        obtain ⟨heap', hsift, hperm', hheap⟩ :=
          ih _ hshort (by rw [Array.size_swap]; exact hone) (hperm.nodup_iff.mpr hnodup) hnext rfl
        exact ⟨heap', hsift, hperm'.trans hperm, hheap⟩
      · rw [if_neg hbehind]
        obtain ⟨hnext, hperm, hshort⟩ := hsink (2 * hole + 2) htwo (by omega) hright (by
          intro i hi hpos hparent
          rcases hchildren i hpos hparent with rfl | rfl
          · exact fun hgoes => hbehind (hanswer.mpr hgoes)
          · exact hcomp.irrefl _)
        obtain ⟨heap', hsift, hperm', hheap⟩ :=
          ih _ hshort (by rw [Array.size_swap]; exact htwo) (hperm.nodup_iff.mpr hnodup) hnext rfl
        exact ⟨heap', hsift, hperm'.trans hperm, hheap⟩
    · rw [dif_neg htwo]
      by_cases hone : 2 * hole + 1 < heap.size
      · rw [dif_pos hone]
        obtain ⟨hnext, hperm, -⟩ := hsink (2 * hole + 1) hone (by omega) hleft (by
          intro i hi hpos hparent
          rcases hchildren i hpos hparent with rfl | rfl
          · exact hcomp.irrefl _
          · exact absurd hi htwo)
        have hrising := hnext.rising (by rw [Array.size_swap]; omega)
        obtain ⟨heap', hsift, hperm', hheap⟩ :=
          siftUp_ok hcomp (by rw [Array.size_swap]; exact hone) (hperm.nodup_iff.mpr hnodup) hrising
        exact ⟨heap', hsift, hperm'.trans hperm, hheap⟩
      · rw [dif_neg hone]
        exact siftUp_ok hcomp hlt hnodup (h.rising (by omega))

/-! ## The operations -/

@[simp] theorem isHeap_empty : IsHeap behind #[] :=
  fun i _ hi => absurd hi (Nat.not_lt_zero i)

/-- **One more element.** -/
theorem push_ok (hcomp : Compares behind comp) {heap : Array α} (hheap : IsHeap behind heap) {a : α}
    (hnodup : (a :: heap.toList).Nodup) :
    ∃ heap', push comp heap a = .ok heap' ∧ heap'.toList.Perm (a :: heap.toList) ∧
      IsHeap behind heap' := by
  have hperm : (heap.push a).toList.Perm (a :: heap.toList) := by
    rw [Array.toList_push]
    exact List.perm_append_singleton a heap.toList
  have hrising : Rising behind (heap.push a) heap.size := by
    refine ⟨fun i habove hi hpos hne => ?_, fun i habove hi hpos hparent hhole => ?_⟩
    · rw [Array.size_push] at hi habove
      have hup := parent_lt hpos
      have hother := hheap i (by omega) (by omega) hpos
      rw [Array.getElem_push_lt (by omega), Array.getElem_push_lt (by omega)]
      exact hother
    · rw [Array.size_push] at hi
      have hup := parent_lt hpos
      omega
  obtain ⟨heap', hsift, hperm', hheap'⟩ :=
    siftUp_ok hcomp (by simp) (hperm.nodup_iff.mpr hnodup) hrising
  exact ⟨heap', hsift, hperm'.trans hperm, hheap'⟩

/-- The first element goes behind none. -/
theorem IsHeap.first (hcomp : Compares behind comp) {heap : Array α} (hheap : IsHeap behind heap)
    (hpos : 0 < heap.size) : ∀ a ∈ heap.toList, ¬ behind heap[0] a := by
  have hplace : ∀ i (_ : i < heap.size), ¬ behind heap[0] heap[i] := by
    intro i
    induction i using Nat.strongRecOn with
    | ind i ih =>
      intro hi
      rcases Nat.eq_zero_or_pos i with rfl | hi0
      · exact hcomp.irrefl _
      · have hup := parent_lt hi0
        have habove : parent i < heap.size := Nat.lt_trans hup hi
        exact hcomp.not_trans (ih (parent i) hup habove) (hheap i habove hi hi0)
  intro a ha
  obtain ⟨i, hi, rfl⟩ := List.getElem_of_mem ha
  exact hplace i (by simpa using hi)

/-- The last element of an array, and the others. -/
theorem perm_pop {heap : Array α} {a : α} (h : heap[heap.size - 1]? = some a) :
    heap.toList.Perm (a :: heap.pop.toList) := by
  have hlast : heap.toList.getLast? = some a := by
    rw [List.getLast?_eq_getElem?, Array.length_toList, Array.getElem?_toList, h]
  obtain ⟨before, hsplit⟩ := List.getLast?_eq_some_iff.mp hlast
  rw [Array.toList_pop, hsplit, List.dropLast_concat]
  exact List.perm_append_singleton a before

/-- **The first element is taken.** -/
theorem pop_ok (hcomp : Compares behind comp) {heap : Array α} (hheap : IsHeap behind heap)
    (hnodup : heap.toList.Nodup) (hpos : 0 < heap.size) :
    ∃ heap', pop comp heap = .ok heap' ∧ heap.toList.Perm (heap[0] :: heap'.toList) ∧
      IsHeap behind heap' := by
  unfold pop
  by_cases hmany : 1 < heap.size
  · rw [dif_pos hmany]
    have hend : heap.size - 1 < heap.size := by omega
    have hlast : (heap.swap 0 (heap.size - 1))[(heap.swap 0 (heap.size - 1)).size - 1]? =
        some heap[0] := by
      rw [Array.size_swap, Array.getElem?_swap, if_pos rfl]
    have hperm := (perm_swap heap hpos hend).symm.trans (perm_pop hlast)
    have hsinking : Sinking behind (heap.swap 0 (heap.size - 1)).pop 0 := by
      refine ⟨fun i habove hi hpos hne hne' => ?_, fun i _ _ _ _ hhole => ?_⟩
      swap
      · exact absurd hhole (Nat.lt_irrefl 0)
      rw [Array.size_pop, Array.size_swap] at hi habove
      have hother := hheap i (by omega) (by omega) hpos
      rw [Array.getElem_pop, Array.getElem_pop, Array.getElem_swap_of_ne (by omega) (by omega),
        Array.getElem_swap_of_ne (by omega) (by omega)]
      exact hother
    obtain ⟨heap', hsift, hperm', hheap'⟩ := siftDown_ok hcomp (by simp; omega)
      (List.nodup_cons.mp (hperm.nodup_iff.mp hnodup)).2 hsinking
    exact ⟨heap', hsift, hperm.trans (hperm'.symm.cons _), hheap'⟩
  · rw [dif_neg hmany]
    have hone : heap.size - 1 = 0 := by omega
    refine ⟨heap.pop, rfl, perm_pop ?_, fun i habove hi hi0 => ?_⟩
    · rw [hone, Array.getElem?_eq_getElem hpos]
    · rw [Array.size_pop] at hi
      omega

/-- The first elements of a heap, one after the other. -/
def drain (comp : α → α → Except ε Bool) : Nat → Array α → Except ε (List α)
  | 0, _ => .ok []
  | n + 1, heap =>
    match heap[0]? with
    | none => .ok []
    | some a => do
      let heap ← pop comp heap
      let rest ← drain comp n heap
      .ok (a :: rest)

/-- **The elements come in their order.** -/
theorem drain_eq (hcomp : Compares behind comp) {heap : Array α} (hheap : IsHeap behind heap)
    {ranking : List α} (hperm : heap.toList.Perm ranking)
    (hranking : ranking.Pairwise fun a b => behind b a) (n : Nat) :
    drain comp n heap = .ok (ranking.take n) := by
  induction n generalizing heap ranking with
  | zero => rfl
  | succ n ih =>
    cases ranking with
    | nil =>
      have hempty : heap = #[] := by simpa using hperm.eq_nil
      rw [hempty]
      rfl
    | cons a ranking =>
      obtain ⟨hfirst, hrest⟩ := List.pairwise_cons.mp hranking
      have hnodup : (a :: ranking).Nodup := by
        refine hranking.imp fun {x y} hgoes heq => ?_
        subst heq
        exact hcomp.irrefl x hgoes
      have hpos : 0 < heap.size := by
        rw [← Array.length_toList, hperm.length_eq]
        exact Nat.succ_pos _
      -- the first element of the heap is the one that goes behind none
      have ha : heap[0] = a := by
        by_contra hne
        have hmem : heap[0] ∈ a :: ranking := hperm.mem_iff.mp (by simp)
        have hgoes := hfirst _ ((List.mem_cons.mp hmem).resolve_left hne)
        exact hheap.first hcomp hpos a (hperm.mem_iff.mpr List.mem_cons_self) hgoes
      obtain ⟨heap', hpop, hperm', hheap'⟩ := pop_ok hcomp hheap (hperm.nodup_iff.mpr hnodup) hpos
      rw [ha] at hperm'
      have hnext := (List.perm_cons a).mp (hperm'.symm.trans hperm)
      rw [drain, Array.getElem?_eq_getElem hpos, ha]
      dsimp only
      rw [hpop, Except.ok_bind, ih hheap' hnext hrest, Except.ok_bind]
      rfl

end Heap
