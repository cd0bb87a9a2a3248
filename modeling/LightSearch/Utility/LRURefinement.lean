import LightSearch.Utility.LRUInvariant

/-!
# The LRU cache refines a recency list

What one cache is for: it answers a key with the value last put for it, as long as not too many
other keys were used since. The history of a cache is read off the calls and what they returned
(`Observation`): a key is touched by a `put`, and by a `get` that returned something. `touches` is
the log of the touches, and `Recency.recent` makes it the full recency list, which forgets nothing.

`entries_observed` is the refinement: after any calls on a new cache, `_cachedData` is the first
`_capacity` entries of the full recency list. With the place of a key in that list
(`Recency.lookup_take_recent`) it decides what every further `get` returns (`get_observed`).
-/

set_option autoImplicit false

namespace LightSearch

open Cxx

/-- A call of `get` or `put` on one cache. -/
inductive Op where
  | get (key : Str)
  | put (key val : Str) (update : Bool)

/-- A call and what it returned; a `put` returns nothing. -/
structure Observation where
  op : Op
  returned : Str

/-- The cache and its history, newest call first, after one more call. -/
def observe (s : LRUCache × List Observation) (op : Op) :
    Except Fault (LRUCache × List Observation) :=
  match op with
  | .get key => do
    let (c, returned) ← s.1.get key
    .ok (c, ⟨op, returned⟩ :: s.2)
  | .put key val update => do
    let c ← s.1.put key val update
    .ok (c, ⟨op, []⟩ :: s.2)

/-! ## What a history says -/

/-- The value last put for a key. -/
def lastPut (key : Str) : List Observation → Option Str
  | [] => none
  | ⟨.put key' val _, _⟩ :: history => if key' = key then some val else lastPut key history
  | ⟨.get _, _⟩ :: history => lastPut key history

/-- The touches, newest first: each put, and each `get` that returned something. -/
def touches : List Observation → List (Str × Str)
  | [] => []
  | ⟨.put key val _, _⟩ :: history => (key, val) :: touches history
  | ⟨.get key, returned⟩ :: history =>
    if returned = [] then touches history else (key, returned) :: touches history

/-- How many distinct other keys were touched since `key` was. -/
def distinctSince (key : Str) (history : List Observation) : Nat :=
  ((Recency.keys (touches history)).takeWhile (· ≠ key)).toFinset.card

/-- No call puts an empty value; `get` could not tell it from a missing one. -/
def Op.NonEmpty : Op → Prop
  | .get _ => True
  | .put _ val _ => val ≠ []

/-! ## The simulation -/

/-- The cache is the cut of the full recency list of its history. -/
structure Refines (capacity : Nat) (s : LRUCache × List Observation) : Prop where
  valid : s.1.Valid
  capacity_eq : s.1.capacity = capacity
  entries_eq : s.1.entries = (Recency.recent (touches s.2)).take capacity
  newest : ∀ key, Recency.lookup key (touches s.2) = lastPut key s.2
  nonEmpty : ∀ key val, lastPut key s.2 = some val → val ≠ []

/-- Among the entries of the cache a key is found when fewer than `_capacity` distinct other keys
were touched since, and then with the value last put. -/
theorem Refines.lookup_entries {capacity : Nat} {s : LRUCache × List Observation}
    (h : Refines capacity s) (key : Str) :
    Recency.lookup key s.1.entries =
      if distinctSince key s.2 < capacity then lastPut key s.2 else none := by
  rw [h.entries_eq, Recency.lookup_take_recent, h.newest]
  rfl

/-- A touch of the cut list, cut again, is the cut of the touched full list. -/
theorem Refines.touch_entries {capacity : Nat} {s : LRUCache × List Observation}
    (h : Refines capacity s) (e : Str × Str) :
    (Recency.touch e s.1.entries).take capacity =
      (Recency.recent (e :: touches s.2)).take capacity := by
  have hpos : 1 ≤ capacity := h.capacity_eq ▸ h.valid.capacity_pos
  rw [h.entries_eq, Recency.take_touch_take e (Recency.nodup_recent _) hpos]
  rfl

theorem refines_observe {capacity : Nat} {s : LRUCache × List Observation}
    (h : Refines capacity s) {op : Op} (hop : op.NonEmpty) :
    ∃ s', observe s op = .ok s' ∧ Refines capacity s' ∧ s'.2.map (·.op) = op :: s.2.map (·.op) := by
  cases op with
  | get key =>
    obtain ⟨c', hget, hvalid, hcap, hcase⟩ := LRUCache.get_valid h.valid key
    have hobserve : observe s (.get key) =
        .ok (c', ⟨.get key, (Recency.lookup key s.1.entries).getD []⟩ :: s.2) := by
      simp only [observe, hget, Except.ok_bind]
    refine ⟨_, hobserve, ?_, rfl⟩
    cases hfound : Recency.lookup key s.1.entries with
    | none =>
      -- a miss returns the empty string and is no touch
      rw [hfound] at hcase
      have htouches : touches (⟨.get key, []⟩ :: s.2) = touches s.2 := if_pos rfl
      subst hcase
      exact ⟨h.valid, h.capacity_eq, htouches ▸ h.entries_eq, htouches ▸ h.newest, h.nonEmpty⟩
    | some val =>
      rw [hfound] at hcase
      have hlast : lastPut key s.2 = some val := by
        rw [h.lookup_entries] at hfound
        split at hfound
        · exact hfound
        · cases hfound
      have htouches : touches (⟨.get key, val⟩ :: s.2) = (key, val) :: touches s.2 :=
        if_neg (h.nonEmpty key val hlast)
      refine ⟨hvalid, hcap.trans h.capacity_eq, ?_, fun k => ?_, h.nonEmpty⟩
      · show c'.entries = (Recency.recent (touches (⟨.get key, val⟩ :: s.2))).take capacity
        rw [htouches, ← h.touch_entries, ← hcase.1,
          List.take_of_length_le (h.capacity_eq ▸ hcap ▸ hvalid.entries_length)]
      · show Recency.lookup k (touches (⟨.get key, val⟩ :: s.2)) = lastPut k s.2
        rw [htouches]
        by_cases hk : key = k
        · rw [Recency.lookup_cons_self hk, ← hk, hlast]
        · rw [Recency.lookup_cons_ne hk, h.newest]
  | put key val update =>
    obtain ⟨c', hput, hvalid, hcap, hentries, -⟩ := LRUCache.put_valid h.valid key val update
    refine ⟨(c', ⟨.put key val update, []⟩ :: s.2), by simp only [observe, hput, Except.ok_bind], ?_,
      rfl⟩
    refine ⟨hvalid, hcap.trans h.capacity_eq, ?_, fun k => ?_, fun k v hv => ?_⟩
    · show c'.entries = (Recency.recent ((key, val) :: touches s.2)).take capacity
      rw [← h.touch_entries, hentries, h.capacity_eq]
    · show Recency.lookup k ((key, val) :: touches s.2) = if key = k then some val else lastPut k s.2
      by_cases hk : key = k
      · rw [Recency.lookup_cons_self hk, if_pos hk]
      · rw [Recency.lookup_cons_ne hk, if_neg hk, h.newest]
    · change (if key = k then some val else lastPut k s.2) = some v at hv
      split at hv
      · exact Option.some.inj hv ▸ hop
      · exact h.nonEmpty k v hv

/-- A new cache refines the empty history. -/
theorem refines_new {capacity : Nat} (h : 1 ≤ capacity) :
    Refines capacity (LRUCache.new capacity, []) where
  valid := LRUCache.valid_new h
  capacity_eq := rfl
  entries_eq := List.take_nil.symm
  newest := fun _ => rfl
  nonEmpty := fun _ _ hv => nomatch hv

/-- **Every run refines**: calls on a new cache succeed, and the cache they leave refines their
history, which has exactly these calls. -/
theorem refines_run {capacity : Nat} (hpos : 1 ≤ capacity) {ops : List Op}
    (hops : ∀ op ∈ ops, op.NonEmpty) :
    ∃ s, Run.run observe (LRUCache.new capacity, []) ops = .ok s ∧ Refines capacity s ∧
      s.2.map (·.op) = ops.reverse := by
  obtain ⟨s, hrun, href, hhistory⟩ := Run.run_refines
    (fun s ops => Refines capacity s ∧ s.2.map (·.op) = ops) (fun ops op => op :: ops) Op.NonEmpty
    (fun s ops op ⟨h, hs⟩ hop => by
      obtain ⟨s', hstep, h', hs'⟩ := refines_observe h hop
      exact ⟨s', hstep, h', hs'.trans (hs ▸ rfl)⟩)
    ⟨refines_new hpos, rfl⟩ ops hops
  refine ⟨s, hrun, href, ?_⟩
  rw [hhistory, List.foldl_flip_cons_eq_append']
  exact List.append_nil _

/-- **The LRU cache answers like the full recency list.** After any calls on a new cache, with values
that are not empty, a `get` returns the value last put for the key when fewer than `capacity`
distinct other keys were touched since the key was, and the empty string otherwise; so what it
returns is not empty exactly when the key was put and so few others were touched. The entries of the
cache are the first `capacity` ones of the full recency list. -/
theorem get_observed {capacity : Nat} (hpos : 1 ≤ capacity) (ops : List Op)
    (hops : ∀ op ∈ ops, op.NonEmpty) :
    ∃ c history, Run.run observe (LRUCache.new capacity, []) ops = .ok (c, history) ∧
      history.map (·.op) = ops.reverse ∧
      c.entries = (Recency.recent (touches history)).take capacity ∧
      ∀ key, ∃ c' returned, c.get key = .ok (c', returned) ∧
        (∀ val, lastPut key history = some val → distinctSince key history < capacity →
          returned = val) ∧
        (returned ≠ [] ↔
          (lastPut key history).isSome = true ∧ distinctSince key history < capacity) := by
  obtain ⟨⟨c, history⟩, hrun, href, hhistory⟩ := refines_run hpos hops
  refine ⟨c, history, hrun, hhistory, href.entries_eq, fun key => ?_⟩
  obtain ⟨c', hget, -⟩ := LRUCache.get_valid href.valid key
  have hlookup := href.lookup_entries key
  simp only at hget hlookup
  rw [hlookup] at hget
  refine ⟨c', _, hget, fun val hval hfew => ?_, ?_⟩
  · rw [if_pos hfew, hval]
    rfl
  · by_cases hfew : distinctSince key history < capacity
    · cases hput : lastPut key history with
      | none => simp only [hfew, ↓reduceIte, Option.getD_none, ne_eq, not_true_eq_false,
          Option.isSome_none, Bool.false_eq_true, false_and]
      | some val =>
        have hval : val ≠ [] := href.nonEmpty key val hput
        simp only [hfew, ↓reduceIte, Option.getD_some, ne_eq, hval, not_false_eq_true,
          Option.isSome_some, and_self]
    · simp only [hfew, ↓reduceIte, Option.getD_none, ne_eq, not_true_eq_false, and_false]

/-- With one entry, looking up `a` after `b` was put finds nothing, whatever was put for `a`. -/
theorem get_observed_one :
    (1 ≤ 1 ∧ ∀ op ∈ [Op.put (lit "a") (lit "1") false, .put (lit "b") (lit "2") true,
      .get (lit "a")], op.NonEmpty) ∧
    ∃ c history, Run.run observe (LRUCache.new 1, [])
        [.put (lit "a") (lit "1") false, .put (lit "b") (lit "2") true, .get (lit "a")] =
          .ok (c, history) ∧
      history.map (·.op) =
        [.get (lit "a"), .put (lit "b") (lit "2") true, .put (lit "a") (lit "1") false] ∧
      c.entries = (Recency.recent (touches history)).take 1 ∧
      ∀ key, ∃ c' returned, c.get key = .ok (c', returned) ∧
        (∀ val, lastPut key history = some val → distinctSince key history < 1 →
          returned = val) ∧
        (returned ≠ [] ↔
          (lastPut key history).isSome = true ∧ distinctSince key history < 1) := by
  have hops : ∀ op ∈ [Op.put (lit "a") (lit "1") false, .put (lit "b") (lit "2") true,
      .get (lit "a")], op.NonEmpty := by
    simp only [List.mem_cons, List.not_mem_nil, or_false, forall_eq_or_imp, forall_eq, Op.NonEmpty]
    decide
  exact ⟨⟨Nat.le_refl 1, hops⟩, get_observed (Nat.le_refl 1) _ hops⟩

end LightSearch
