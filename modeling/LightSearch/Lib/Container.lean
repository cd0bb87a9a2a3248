import Mathlib.Data.List.AList
import Mathlib.Data.List.Count

/-!
# Hash maps that count and group

A hash map is an association list without repeated keys (`AList`). The order in which a loop goes
through one is not determined by the program: `Unordered` is any choice of such orders, and what is
proved for all of them does not depend on the choice.

Two ways of filling a map are used again and again. `bump` counts: after counting a list, a key has
its number of occurrences (`lookup_tally`). `push` groups: after pushing a list of pairs, a key has
its values in the order of the list (`group_pushAll`).
-/

set_option autoImplicit false

universe u v

/-- An order for each list that the program leaves without one. -/
structure Unordered where
  order : {α : Type} → List α → List α
  perm : ∀ {α : Type} (l : List α), (order l).Perm l

/-- Lists in the order they are in. -/
def Unordered.asIs : Unordered where
  order l := l
  perm l := List.Perm.refl l

/-- The order from the last to the first. -/
def Unordered.backwards : Unordered where
  order l := l.reverse
  perm l := List.reverse_perm l

namespace HashMap

variable {K V : Type}

/-- A hash map from `K` to `V`. -/
abbrev Map (K V : Type) := AList fun _ : K => V

/-- The pairs of a map, in the order of a loop. -/
def inOrder (o : Unordered) (m : Map K V) : List (K × V) :=
  o.order (m.entries.map fun e => (e.1, e.2))

theorem nodup_inOrder (o : Unordered) (m : Map K V) : ((inOrder o m).map Prod.fst).Nodup := by
  have hkeys : ((m.entries.map fun e => (e.1, e.2)).map Prod.fst) = m.keys := by
    rw [List.map_map]
    rfl
  refine (((o.perm _).map Prod.fst).nodup_iff).mpr ?_
  rw [hkeys]
  exact m.keys_nodup

variable [DecidableEq K]

theorem mem_inOrder {o : Unordered} {m : Map K V} {k : K} {v : V} :
    (k, v) ∈ inOrder o m ↔ m.lookup k = some v := by
  unfold inOrder
  rw [(o.perm _).mem_iff, List.mem_map]
  constructor
  · rintro ⟨e, he, heq⟩
    obtain ⟨rfl, rfl⟩ := Prod.mk.inj heq
    exact AList.mem_lookup_iff.mpr he
  · intro h
    exact ⟨⟨k, v⟩, AList.mem_lookup_iff.mp h, rfl⟩

/-- Among pairs with distinct keys, those with a given key. -/
theorem filter_key {l : List (K × V)} (h : (l.map Prod.fst).Nodup) {k : K} {v : V}
    (hmem : (k, v) ∈ l) : l.filter (fun p => p.1 = k) = [(k, v)] := by
  induction l with
  | nil => exact absurd hmem List.not_mem_nil
  | cons p l ih =>
    obtain ⟨hp, hl⟩ := List.nodup_cons.mp h
    rw [List.filter_cons]
    rcases List.mem_cons.mp hmem with rfl | hmem
    · have hrest : l.filter (fun p => p.1 = k) = [] := by
        apply List.filter_eq_nil_iff.mpr
        intro q hq hk
        have hkey : q.1 ∈ l.map Prod.fst := List.mem_map_of_mem hq
        exact hp (of_decide_eq_true hk ▸ hkey)
      rw [hrest, if_pos (decide_eq_true rfl)]
    · have hne : p.1 ≠ k := fun hk => hp (hk ▸ List.mem_map_of_mem (f := Prod.fst) hmem)
      rw [if_neg (fun hk => hne (of_decide_eq_true hk)), ih hl hmem]

theorem filter_key_nil {l : List (K × V)} {k : K} (h : ∀ p ∈ l, p.1 ≠ k) :
    l.filter (fun p => p.1 = k) = [] := by
  apply List.filter_eq_nil_iff.mpr
  intro p hp hk
  exact h p hp (of_decide_eq_true hk)

/-! ## Counting -/

/-- `if (m.count(k) == 0) m[k] = 1; else m[k]++;` -/
def bump (m : Map K Nat) (k : K) : Map K Nat :=
  match m.lookup k with
  | none => m.insert k 1
  | some n => m.insert k (n + 1)

/-- Count the elements of a list. -/
def tally (l : List K) : Map K Nat := l.foldl bump ∅

/-- How often a key was counted. -/
def times (m : Map K Nat) (k : K) : Nat := (m.lookup k).getD 0

theorem lookup_bump (m : Map K Nat) (k k' : K) :
    (bump m k).lookup k' = if k' = k then some (times m k + 1) else m.lookup k' := by
  have hinsert : ∀ n, (m.insert k n).lookup k' = if k' = k then some n else m.lookup k' := by
    intro n
    by_cases hk : k' = k
    · rw [hk, AList.lookup_insert, if_pos rfl]
    · rw [AList.lookup_insert_ne hk, if_neg hk]
  unfold bump times
  cases m.lookup k with
  | none => exact hinsert 1
  | some n => exact hinsert (n + 1)

section

variable [BEq K] [LawfulBEq K]

theorem lookup_foldl_bump (l : List K) (m : Map K Nat) (k : K) :
    (l.foldl bump m).lookup k = if k ∈ l then some (times m k + l.count k) else m.lookup k := by
  induction l generalizing m with
  | nil => exact (if_neg List.not_mem_nil).symm
  | cons a l ih =>
    have htimes : times (bump m a) k = times m k + if a = k then 1 else 0 := by
      unfold times
      rw [lookup_bump]
      by_cases hk : a = k
      · rw [if_pos hk.symm, if_pos hk, hk]
        rfl
      · rw [if_neg (Ne.symm hk), if_neg hk]
        rfl
    rw [List.foldl_cons, ih, htimes, lookup_bump]
    by_cases hk : a = k
    · subst hk
      by_cases hl : a ∈ l
      · rw [if_pos hl, if_pos rfl, if_pos List.mem_cons_self, List.count_cons_self]
        congr 1
        omega
      · rw [if_neg hl, if_pos rfl, if_pos List.mem_cons_self, List.count_cons_self,
          List.count_eq_zero_of_not_mem hl]
    · simp only [List.mem_cons, Ne.symm hk, false_or, if_neg hk, ↓reduceIte,
        List.count_cons_of_ne hk, Nat.add_zero]

/-- **A counted list**: each element has its number of occurrences. -/
theorem lookup_tally (l : List K) (k : K) :
    (tally l).lookup k = if k ∈ l then some (l.count k) else none := by
  rw [tally, lookup_foldl_bump]
  unfold times
  rw [AList.lookup_empty, Option.getD_none, Nat.zero_add]

theorem lookup_tally_eq_some {l : List K} {k : K} {n : Nat} :
    (tally l).lookup k = some n ↔ n = l.count k ∧ 0 < n := by
  rw [lookup_tally]
  split
  · next hk =>
    rw [Option.some_inj]
    constructor
    · rintro rfl
      exact ⟨rfl, List.count_pos_iff.mpr hk⟩
    · rintro ⟨rfl, -⟩
      rfl
  · next hk =>
    constructor
    · intro h
      cases h
    · rintro ⟨rfl, hpos⟩
      exact absurd (List.count_pos_iff.mp hpos) hk

theorem times_tally (l : List K) (k : K) : times (tally l) k = l.count k := by
  unfold times
  rw [lookup_tally]
  split
  · rfl
  · next hk => exact (List.count_eq_zero_of_not_mem hk).symm

end

/-! ## Grouping -/

/-- `m[k].push_back(v)`. -/
def push (m : Map K (List V)) (k : K) (v : V) : Map K (List V) :=
  m.insert k ((m.lookup k).getD [] ++ [v])

/-- What a key has been given. -/
def group (m : Map K (List V)) (k : K) : List V := (m.lookup k).getD []

theorem group_push (m : Map K (List V)) (k k' : K) (v : V) :
    group (push m k v) k' = group m k' ++ if k = k' then [v] else [] := by
  unfold group push
  by_cases hk : k = k'
  · rw [if_pos hk, hk, AList.lookup_insert]
    rfl
  · rw [if_neg hk, AList.lookup_insert_ne (Ne.symm hk), List.append_nil]

/-- Push the pairs of a list, the first one first. -/
def pushAll (m : Map K (List V)) (l : List (K × V)) : Map K (List V) :=
  l.foldl (fun m p => push m p.1 p.2) m

/-- **Grouped pairs**: a key gets the values paired with it, in their order. -/
theorem group_pushAll (m : Map K (List V)) (l : List (K × V)) (k : K) :
    group (pushAll m l) k = group m k ++ (l.filter fun p => p.1 = k).map Prod.snd := by
  induction l generalizing m with
  | nil => exact (List.append_nil _).symm
  | cons p l ih =>
    show group (pushAll (push m p.1 p.2) l) k = _
    rw [ih, group_push, List.append_assoc, List.filter_cons]
    by_cases hk : p.1 = k
    · rw [if_pos hk, if_pos (decide_eq_true hk)]
      rfl
    · rw [if_neg hk, if_neg (fun h => hk (of_decide_eq_true h))]
      rfl

/-- **A table of groups**: when each key of a map stands before each of its values, the rows of a key
are its values, in their order, whatever order the map is gone through. -/
theorem filter_rows (o : Unordered) (m : Map K (List V)) (k : K) :
    ((inOrder o m).flatMap fun e => e.2.map fun v => (e.1, v)).filter (fun p => p.1 = k) =
      (group m k).map fun v => (k, v) := by
  -- the rows of one pair are all kept or all dropped
  have hrows : ∀ e : K × List V, (e.2.map fun v => (e.1, v)).filter (fun p => p.1 = k) =
      if e.1 = k then e.2.map fun v => (k, v) else [] := by
    intro e
    rw [List.filter_map]
    by_cases hk : e.1 = k
    · simp only [Function.comp_def, hk, decide_true, List.filter_true, ↓reduceIte]
    · simp only [Function.comp_def, hk, decide_false, List.filter_false, List.map_nil, ↓reduceIte]
  have hdrop : ∀ l : List (K × List V), (l.flatMap fun e => e.2.map fun v => (e.1, v)).filter
      (fun p => p.1 = k) = (l.filter fun e => e.1 = k).flatMap fun e => e.2.map fun v => (k, v) := by
    intro l
    induction l with
    | nil => rfl
    | cons e l ih =>
      rw [List.flatMap_cons, List.filter_append, ih, hrows, List.filter_cons]
      by_cases hk : e.1 = k
      · rw [if_pos hk, if_pos (decide_eq_true hk)]
        rfl
      · rw [if_neg hk, if_neg (fun h => hk (of_decide_eq_true h))]
        rfl
  rw [hdrop]
  unfold group
  cases hlookup : m.lookup k with
  | none =>
    rw [filter_key_nil]
    · rfl
    · rintro ⟨k', vs⟩ hmem rfl
      rw [mem_inOrder, hlookup] at hmem
      cases hmem
  | some vs =>
    rw [filter_key (nodup_inOrder o m) (mem_inOrder.mpr hlookup)]
    exact List.append_nil _

/-! ## Assigning -/

/-- `m[k] = f(k)` for the keys of a list. -/
def assign (m : Map K V) (f : K → V) (keys : List K) : Map K V :=
  keys.foldl (fun m k => m.insert k (f k)) m

theorem lookup_assign (m : Map K V) (f : K → V) (keys : List K) (k : K) :
    (assign m f keys).lookup k = if k ∈ keys then some (f k) else m.lookup k := by
  induction keys generalizing m with
  | nil => exact (if_neg List.not_mem_nil).symm
  | cons a keys ih =>
    show (assign (m.insert a (f a)) f keys).lookup k = _
    rw [ih]
    by_cases hk : k = a
    · rw [hk, AList.lookup_insert, ite_self, if_pos List.mem_cons_self]
    · simp only [List.mem_cons, hk, false_or, AList.lookup_insert_ne hk]

/-- What a map has that was empty before. -/
theorem mem_inOrder_assign {o : Unordered} {f : K → V} {keys : List K} {k : K} {v : V} :
    (k, v) ∈ inOrder o (assign ∅ f keys) ↔ k ∈ keys ∧ f k = v := by
  rw [mem_inOrder, lookup_assign, AList.lookup_empty]
  split
  · next hk => rw [Option.some.injEq, and_iff_right hk]
  · next hk => exact iff_of_false (fun h => nomatch h) fun h => hk h.1

end HashMap
