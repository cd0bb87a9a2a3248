import Mathlib.Data.List.Basic
import Mathlib.Tactic.Common

/-!
# Tries

A trie stores values under keys that are lists: every node has a value, if one is stored there, and its
children by the next element of the key. `find?` walks down the key, and `insert` builds the missing
nodes on the way.

Seen through `find?` a trie is a finite map: an insert changes what is found for its own key and
nothing else (`find?_insert`).
-/

set_option autoImplicit false

universe u v

/-- A node: its children, each under an element of the keys, and its value. -/
inductive Trie (κ : Type u) (υ : Type v) where
  | node (next : List (κ × Trie κ υ)) (value : Option υ)

namespace Trie

variable {κ : Type u} {υ : Type v}

/-- A node without children and without a value. -/
def empty : Trie κ υ := .node [] none

def next : Trie κ υ → List (κ × Trie κ υ)
  | .node next _ => next

def value : Trie κ υ → Option υ
  | .node _ value => value

variable [DecidableEq κ]

/-- The child under an element. -/
def childIn (k : κ) : List (κ × Trie κ υ) → Option (Trie κ υ)
  | [] => none
  | (k', t) :: rest => if k' = k then some t else childIn k rest

def child (t : Trie κ υ) (k : κ) : Option (Trie κ υ) := childIn k t.next

/-- Put a child under an element, in the place of the one that is there. -/
def assign (k : κ) (t : Trie κ υ) : List (κ × Trie κ υ) → List (κ × Trie κ υ)
  | [] => [(k, t)]
  | (k', t') :: rest => if k' = k then (k, t) :: rest else (k', t') :: assign k t rest

/-- The node that a key leads to. -/
def descend : Trie κ υ → List κ → Option (Trie κ υ)
  | t, [] => some t
  | t, k :: key => (t.child k).bind fun t' => t'.descend key

/-- The value under a key. -/
def find? (t : Trie κ υ) (key : List κ) : Option υ := (t.descend key).bind value

def insert : Trie κ υ → List κ → υ → Trie κ υ
  | t, [], v => .node t.next (some v)
  | t, k :: key, v => .node (assign k (((t.child k).getD empty).insert key v) t.next) t.value

/-! ## The children -/

@[simp] theorem childIn_nil (k : κ) : childIn k ([] : List (κ × Trie κ υ)) = none := rfl

theorem childIn_cons (k : κ) (e : κ × Trie κ υ) (rest : List (κ × Trie κ υ)) :
    childIn k (e :: rest) = if e.1 = k then some e.2 else childIn k rest := rfl

theorem childIn_assign (k k' : κ) (t : Trie κ υ) (next : List (κ × Trie κ υ)) :
    childIn k' (assign k t next) = if k' = k then some t else childIn k' next := by
  induction next with
  | nil =>
    show (if k = k' then some t else none) = _
    simp only [eq_comm, childIn_nil]
  | cons e rest ih =>
    unfold assign
    by_cases he : e.1 = k
    · rw [if_pos he, childIn_cons, childIn_cons]
      by_cases hk : k' = k
      · rw [if_pos hk.symm, if_pos hk]
      · rw [if_neg (Ne.symm hk), if_neg hk, if_neg fun h => hk (h.symm.trans he)]
    · rw [if_neg he, childIn_cons, childIn_cons, ih]
      by_cases hk : k' = k
      · rw [hk, if_neg he, if_pos rfl, if_pos rfl]
      · rw [if_neg hk, if_neg hk]

theorem child_node (next : List (κ × Trie κ υ)) (value : Option υ) (k : κ) :
    (Trie.node next value).child k = childIn k next := rfl

/-! ## Keys -/

theorem descend_cons (t : Trie κ υ) (k : κ) (key : List κ) :
    t.descend (k :: key) = (t.child k).bind fun t' => t'.descend key := rfl

@[simp] theorem find?_nil (t : Trie κ υ) : t.find? [] = t.value := rfl

theorem find?_cons (t : Trie κ υ) (k : κ) (key : List κ) :
    t.find? (k :: key) = (t.child k).bind fun t' => t'.find? key := by
  unfold find?
  rw [descend_cons, Option.bind_assoc]

@[simp] theorem find?_empty (key : List κ) : (empty : Trie κ υ).find? key = none := by
  cases key with
  | nil => rfl
  | cons k key => rfl

/-- **What an insert changes.** -/
theorem find?_insert (t : Trie κ υ) (key key' : List κ) (v : υ) :
    (t.insert key v).find? key' = if key' = key then some v else t.find? key' := by
  induction key generalizing t key' with
  | nil =>
    cases key' with
    | nil => rfl
    | cons k key' =>
      rw [if_neg (List.cons_ne_nil _ _), find?_cons, find?_cons]
      rfl
  | cons k key ih =>
    cases key' with
    | nil =>
      rw [if_neg (List.cons_ne_nil _ _).symm]
      rfl
    | cons k' key' =>
      rw [find?_cons, insert, child_node, childIn_assign, find?_cons]
      by_cases hk : k' = k
      · subst hk
        rw [if_pos rfl, Option.bind_some, ih]
        by_cases hkey : key' = key
        · rw [if_pos hkey, if_pos (congrArg _ hkey)]
        · rw [if_neg hkey, if_neg fun h => hkey (List.cons.inj h).2]
          cases t.child k' with
          | none => exact find?_empty key'
          | some t' => rfl
      · rw [if_neg hk, if_neg fun h => hk (List.cons.inj h).1]
        rfl

end Trie
