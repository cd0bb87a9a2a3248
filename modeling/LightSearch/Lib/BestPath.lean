import Mathlib.Data.List.Basic
import Mathlib.Order.Lattice
import Mathlib.Order.Monotone.Defs
import Mathlib.Tactic.Common

/-!
# Best ways through a graph without cycles

A node is an end with a value, or it has edges, and a way goes along edges to an end. An edge says what
becomes of the total of the way behind it, so the total of a way is the value of its end after all its
edges, the last one first. Programs that look for the way with the greatest total compute a value for
each node from the values of the nodes behind its edges, remember the edge that gave it, and follow the
remembered edges.

Of the edges nothing is asked but that they are monotone. So the sums may be rounded, as those of
floating point are: totals are added up in the order of the program.

The values start from a floor, a number that stands for minus infinity, and an edge is remembered when
it comes out above everything before it. So a node can be worth the floor although all its ways are
worse, with no edge remembered. For edges that make no total greater this does no harm: no way is better
than its first node is worth (`Worth.total_le`), and from a node above the floor the remembered edges are
a way that is worth as much (`Worth.attained`).
-/

set_option autoImplicit false

universe u v

namespace BestPath

/-! ## The best of a list -/

section Best

variable {α : Type u} {W : Type v} [LinearOrder W]

/-- Keep the better one; the first of two that are equally good. -/
def better (val : α → W) (best : W × Option α) (a : α) : W × Option α :=
  if best.1 < val a then (val a, some a) else best

/-- The best value above the floor, with what has it. -/
def best (floor : W) (val : α → W) (l : List α) : W × Option α := l.foldl (better val) (floor, none)

variable {floor : W} {val : α → W}

theorem le_better (best : W × Option α) (a : α) :
    best.1 ≤ (better val best a).1 ∧ val a ≤ (better val best a).1 := by
  unfold better
  split
  · next h => exact ⟨h.le, le_refl _⟩
  · next h => exact ⟨le_refl _, not_lt.mp h⟩

theorem le_foldl (l : List α) (start : W × Option α) :
    start.1 ≤ (l.foldl (better val) start).1 ∧
      ∀ a ∈ l, val a ≤ (l.foldl (better val) start).1 := by
  induction l generalizing start with
  | nil => exact ⟨le_refl _, fun _ ha => absurd ha List.not_mem_nil⟩
  | cons b l ih =>
    obtain ⟨hstart, hb⟩ := @le_better α W _ val start b
    obtain ⟨hle, hall⟩ := ih (better val start b)
    refine ⟨hstart.trans hle, fun a ha => ?_⟩
    rcases List.mem_cons.mp ha with rfl | ha
    · exact hb.trans hle
    · exact hall a ha

/-- Nothing in the list is better. -/
theorem le_best (floor : W) (val : α → W) {l : List α} {a : α} (ha : a ∈ l) : val a ≤ (best floor val l).1 :=
  (le_foldl l _).2 a ha

/-- The best is the floor, or it is the value of what comes with it. -/
theorem best_cases (floor : W) (val : α → W) (l : List α) :
    best floor val l = (floor, none) ∨
      ∃ a ∈ l, best floor val l = (val a, some a) ∧ floor < val a := by
  have hfold : ∀ (l : List α) (start : W × Option α),
      l.foldl (better val) start = start ∨
        ∃ a ∈ l, l.foldl (better val) start = (val a, some a) ∧ start.1 < val a := by
    intro l
    induction l with
    | nil => exact fun start => .inl rfl
    | cons b l ih =>
      intro start
      rw [List.foldl_cons]
      rcases ih (better val start b) with hsame | ⟨a, ha, heq, hlt⟩
      · rw [hsame]
        unfold better
        split
        · next h => exact .inr ⟨b, List.mem_cons_self, rfl, h⟩
        · exact .inl rfl
      · exact .inr ⟨a, List.mem_cons_of_mem _ ha, heq, (le_better start b).1.trans_lt hlt⟩
  exact hfold l _

theorem best_congr {val' : α → W} {l : List α} (h : ∀ a ∈ l, val a = val' a) :
    best floor val l = best floor val' l := by
  unfold best
  refine List.foldl_ext _ _ _ fun b a ha => ?_
  unfold better
  rw [h a ha]

end Best

/-! ## Ways -/

section Ways

variable {ν : Type u} {W : Type v}

/-- A way from a node to an end: the nodes that it passes, and its total. -/
inductive Way (edges : ν → List (ν × (W → W))) (stop : ν → Option W) : ν → List ν → W → Prop
  | stop {n : ν} {value : W} (hstop : stop n = some value) : Way edges stop n [n] value
  | step {n n' : ν} {w : W → W} {total : W} {ns : List ν} (hstop : stop n = none)
    (hedge : (n', w) ∈ edges n) (hway : Way edges stop n' ns total) :
    Way edges stop n (n :: ns) (w total)

theorem Way.exists_cons {edges : ν → List (ν × (W → W))} {stop : ν → Option W} {n : ν} {ns : List ν}
    {total : W} (h : Way edges stop n ns total) : ∃ rest, ns = n :: rest := by
  cases h with
  | stop _ => exact ⟨[], rfl⟩
  | step _ _ _ => exact ⟨_, rfl⟩

/-- The nodes that are passed when the chosen edges are followed. -/
inductive Follows (stop : ν → Option W) (choose : ν → ν) : ν → List ν → Prop
  | stop {n : ν} {value : W} (hstop : stop n = some value) : Follows stop choose n [n]
  | step {n : ν} {ns : List ν} (hstop : stop n = none) (hrest : Follows stop choose (choose n) ns) :
    Follows stop choose n (n :: ns)

theorem Follows.exists_cons {stop : ν → Option W} {choose : ν → ν} {n : ν} {ns : List ν}
    (h : Follows stop choose n ns) : ∃ rest, ns = n :: rest := by
  cases h with
  | stop _ => exact ⟨[], rfl⟩
  | step _ _ => exact ⟨_, rfl⟩

variable [LinearOrder W]

/-- The nodes are worth what they ought to be: an end its value, another node at least what each edge
makes of it, and above the floor exactly what the chosen edge makes of it. -/
structure Worth (edges : ν → List (ν × (W → W))) (stop : ν → Option W) (floor : W) (choose : ν → ν)
    (worth : ν → W) : Prop where
  ends : ∀ {n value}, stop n = some value → worth n = value
  edge : ∀ {n}, stop n = none → ∀ e ∈ edges n, e.2 (worth e.1) ≤ worth n
  chosen : ∀ {n}, stop n = none → floor < worth n →
    ∃ w, (choose n, w) ∈ edges n ∧ worth n = w (worth (choose n))

variable {edges : ν → List (ν × (W → W))} {stop : ν → Option W} {floor : W} {choose : ν → ν}
  {worth : ν → W}

/-- **No way is better than its first node is worth.** -/
theorem Worth.total_le (h : Worth edges stop floor choose worth)
    (hmono : ∀ n, ∀ e ∈ edges n, Monotone e.2) {n : ν} {ns : List ν} {total : W}
    (hway : Way edges stop n ns total) : total ≤ worth n := by
  induction hway with
  | stop hstop => exact (h.ends hstop).ge
  | @step n n' w total ns hstop hedge _ ih =>
    calc w total ≤ w (worth n') := hmono n _ hedge ih
      _ ≤ worth n := h.edge hstop _ hedge

/-- **Above the floor the chosen edges are a way** that is worth as much as its first node. -/
theorem Worth.attained (h : Worth edges stop floor choose worth)
    (hneg : ∀ n, ∀ e ∈ edges n, ∀ t, e.2 t ≤ t) {n : ν} {ns : List ν}
    (hns : Follows stop choose n ns) (hfloor : stop n = none → floor < worth n) :
    Way edges stop n ns (worth n) := by
  induction hns with
  | stop hstop =>
    rw [h.ends hstop]
    exact .stop hstop
  | @step n ns hstop _ ih =>
    obtain ⟨w, hedge, hworth⟩ := h.chosen hstop (hfloor hstop)
    have hnext : floor < worth (choose n) := by
      refine (hfloor hstop).trans_le ?_
      rw [hworth]
      exact hneg n _ hedge _
    rw [hworth]
    exact .step hstop hedge (ih fun _ => hnext)

/-- **The chosen way is the best** when some way is above the floor. -/
theorem Worth.best (h : Worth edges stop floor choose worth)
    (hmono : ∀ n, ∀ e ∈ edges n, Monotone e.2) (hneg : ∀ n, ∀ e ∈ edges n, ∀ t, e.2 t ≤ t) {n : ν}
    {ns : List ν} (hns : Follows stop choose n ns) {ns' : List ν} {total' : W}
    (hway : Way edges stop n ns' total') (habove : floor < total') :
    Way edges stop n ns (worth n) ∧ ∀ ns'' total'', Way edges stop n ns'' total'' →
      total'' ≤ worth n :=
  ⟨h.attained hneg hns fun _ => habove.trans_le (h.total_le hmono hway),
    fun _ _ => h.total_le hmono⟩

end Ways

end BestPath
