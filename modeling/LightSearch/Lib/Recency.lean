import Mathlib.Data.List.Nodup
import Mathlib.Data.Finset.Card
import Mathlib.Data.Finset.Dedup

/-!
# Recency lists

A recency list is an association list with the most recently used entry first. `touch` puts an entry
at the front, in the place of the entry its key had; `replay` touches the entries of a log, oldest
first. A cache of capacity `c` keeps the first `c` entries only.

Two facts carry every use.

- **The stack property** (`take_touch_take`, `take_replay`): cutting to `c` entries before a touch
  changes nothing of the first `c` entries after it. So a bounded list that is cut after each touch
  is the cut of the unbounded list.
- **Replay forgets** (`replay_eq`): after a replay the list is the log's own recency list, followed
  by the old entries the log does not mention. So lists that differ only in entries the log mentions
  become equal (`replay_congr`).

The last section gives the place of a key: it has one entry before it for each distinct key touched
since (`lookup_take_recent`).
-/

set_option autoImplicit false

universe u v

namespace Recency

variable {K : Type u} {V : Type v}

/-- The keys of an association list. -/
abbrev keys (l : List (K × V)) : List K := l.map Prod.fst

theorem keys_filter (q : K → Bool) (l : List (K × V)) :
    keys (l.filter fun p => q p.1) = (keys l).filter q := by
  simp only [keys, List.filter_map]
  rfl

variable [DecidableEq K]

/-- Put an entry at the front; the entry its key had is dropped. -/
def touch (e : K × V) (l : List (K × V)) : List (K × V) :=
  e :: l.filter fun p => p.1 ≠ e.1

/-- Touch the entries of a log, the first one first. -/
def replay (log : List (K × V)) (l : List (K × V)) : List (K × V) :=
  log.foldl (fun l e => touch e l) l

/-- Touch the entries of a log, the first one first, and cut to `c` entries after each. -/
def replayBounded (c : Nat) (log : List (K × V)) (l : List (K × V)) : List (K × V) :=
  log.foldl (fun l e => (touch e l).take c) l

/-! ## Keys -/

theorem keys_touch (e : K × V) (l : List (K × V)) :
    keys (touch e l) = e.1 :: (keys l).filter (fun k => k ≠ e.1) :=
  congrArg (e.1 :: ·) (keys_filter (fun k => decide (k ≠ e.1)) l)

theorem nodup_touch {l : List (K × V)} (e : K × V) (h : (keys l).Nodup) :
    (keys (touch e l)).Nodup := by
  rw [keys_touch]
  refine List.nodup_cons.mpr ⟨fun hmem => ?_, h.filter _⟩
  exact absurd rfl (of_decide_eq_true (List.mem_filter.mp hmem).2)

theorem nodup_replay {log l : List (K × V)} (h : (keys l).Nodup) :
    (keys (replay log l)).Nodup := by
  induction log generalizing l with
  | nil => exact h
  | cons e log ih => exact ih (nodup_touch e h)

theorem filter_ne_cons {p : K × V} {k : K} (hk : p.1 ≠ k) (l : List (K × V)) :
    ((p :: l).filter fun p => p.1 ≠ k) = p :: l.filter fun p => p.1 ≠ k := by
  simp only [List.filter_cons, decide_eq_true hk, ↓reduceIte]

theorem filter_eq_cons {p : K × V} {k : K} (hk : p.1 = k) (l : List (K × V)) :
    ((p :: l).filter fun p => p.1 ≠ k) = l.filter fun p => p.1 ≠ k := by
  simp only [List.filter_cons, hk, ne_eq, not_true_eq_false, decide_false, Bool.false_eq_true,
    ↓reduceIte]

/-! ## The stack property -/

/-- A list without the key is kept whole by the filter of a touch. -/
theorem filter_ne_of_not_mem {l : List (K × V)} {k : K} (h : k ∉ keys l) :
    (l.filter fun p => p.1 ≠ k) = l := by
  refine List.filter_eq_self.mpr fun p hp => decide_eq_true fun hk => h ?_
  exact hk ▸ List.mem_map_of_mem hp

/-- Dropping one key from the first `c + 1` entries keeps the first `c` entries without it. -/
theorem take_filter_take {l : List (K × V)} (k : K) (h : (keys l).Nodup) (c : Nat) :
    ((l.take (c + 1)).filter fun p => p.1 ≠ k).take c = (l.filter fun p => p.1 ≠ k).take c := by
  induction l generalizing c with
  | nil => rfl
  | cons p l ih =>
    obtain ⟨hp, hl⟩ := List.nodup_cons.mp h
    by_cases hk : p.1 = k
    · -- the key stands here, and nowhere after: the filter drops this entry alone
      have hrest : k ∉ keys l := hk ▸ hp
      have htake : k ∉ keys (l.take c) := fun hmem =>
        hrest (List.map_subset _ (List.take_subset c l) hmem)
      rw [List.take_succ_cons, filter_eq_cons hk, filter_eq_cons hk, filter_ne_of_not_mem htake,
        filter_ne_of_not_mem hrest, List.take_take, Nat.min_self]
    · rw [List.take_succ_cons, filter_ne_cons hk, filter_ne_cons hk]
      cases c with
      | zero => rfl
      | succ c => rw [List.take_succ_cons, List.take_succ_cons, ih hl c]

/-- **The stack property of one touch.** -/
theorem take_touch_take {l : List (K × V)} (e : K × V) (h : (keys l).Nodup) {c : Nat}
    (hc : 1 ≤ c) : (touch e (l.take c)).take c = (touch e l).take c := by
  obtain ⟨c, rfl⟩ := Nat.exists_eq_succ_of_ne_zero (Nat.one_le_iff_ne_zero.mp hc)
  simp only [touch, Nat.succ_eq_add_one, List.take_succ_cons, take_filter_take e.1 h c]

/-- **The stack property of a replay**: the bounded replay is the cut of the unbounded one. -/
theorem take_replay {l : List (K × V)} (log : List (K × V)) (h : (keys l).Nodup) {c : Nat}
    (hc : 1 ≤ c) : replayBounded c log (l.take c) = (replay log l).take c := by
  induction log generalizing l with
  | nil => rfl
  | cons e log ih =>
    show replayBounded c log ((touch e (l.take c)).take c) = (replay log (touch e l)).take c
    rw [take_touch_take e h hc, ih (nodup_touch e h)]

/-! ## What a replay leaves -/

/-- The recency list of a log alone, its newest entry first in the log. -/
def recent : List (K × V) → List (K × V)
  | [] => []
  | e :: log => touch e (recent log)

theorem nodup_recent (log : List (K × V)) : (keys (recent log)).Nodup := by
  induction log with
  | nil => exact List.nodup_nil
  | cons e log ih => exact nodup_touch e ih

theorem mem_keys_recent {log : List (K × V)} {k : K} : k ∈ keys (recent log) ↔ k ∈ keys log := by
  induction log with
  | nil => exact Iff.rfl
  | cons e log ih =>
    rw [recent, keys_touch, List.mem_cons, List.mem_filter, ih]
    show k = e.1 ∨ k ∈ keys log ∧ decide (k ≠ e.1) = true ↔ k ∈ e.1 :: keys log
    rw [List.mem_cons]
    by_cases hk : k = e.1
    · simp only [hk, true_or]
    · simp only [hk, false_or, ne_eq, not_false_eq_true, decide_true, and_true]

/-- **Replay forgets**: the log's recency list, then the old entries it does not mention. -/
theorem replay_eq (log l : List (K × V)) :
    replay log.reverse l = recent log ++ l.filter fun p => p.1 ∉ keys log := by
  induction log with
  | nil =>
    simp only [List.reverse_nil, replay, List.foldl_nil, recent, keys, List.map_nil,
      List.not_mem_nil, not_false_eq_true, decide_true, List.filter_true, List.nil_append]
  | cons e log ih =>
    have hsplit : replay (e :: log).reverse l = touch e (replay log.reverse l) := by
      rw [List.reverse_cons, replay, List.foldl_append]
      rfl
    rw [hsplit, ih, touch, recent, touch, List.filter_append, List.filter_filter, List.cons_append]
    refine congrArg (fun t => e :: (_ ++ t)) (List.filter_congr fun p _ => ?_)
    simp only [keys, List.map_cons, List.mem_cons, not_or, Bool.decide_and, ne_eq]

/-- Lists with the same entries outside a log are equal after its replay. -/
theorem replay_congr {log l l' : List (K × V)}
    (h : (l.filter fun p => p.1 ∉ keys log) = l'.filter fun p => p.1 ∉ keys log) :
    replay log.reverse l = replay log.reverse l' := by
  rw [replay_eq, replay_eq, h]

/-- A replay keeps the entries outside its log, in their order. -/
theorem filter_replay {log : List (K × V)} {S : List K} (hS : ∀ k ∈ keys log, k ∈ S)
    (l : List (K × V)) :
    ((replay log.reverse l).filter fun p => p.1 ∉ S) = l.filter fun p => p.1 ∉ S := by
  have hlog : ((recent log).filter fun p => p.1 ∉ S) = [] := by
    refine List.filter_eq_nil_iff.mpr fun p hp => ?_
    have : p.1 ∈ S := hS _ (mem_keys_recent.mp (List.mem_map_of_mem hp))
    simpa only [decide_eq_true_iff, not_not]
  rw [replay_eq, List.filter_append, hlog, List.nil_append, List.filter_filter]
  refine List.filter_congr fun p _ => ?_
  by_cases hp : p.1 ∈ S
  · simp only [hp, not_true_eq_false, decide_false, Bool.false_and]
  · have : p.1 ∉ keys log := fun h => hp (hS _ h)
    simp only [hp, this, not_false_eq_true, decide_true, Bool.and_self]

/-! ## The place of a key -/

/-- The value of a key: that of the first entry with the key. -/
def lookup (k : K) (l : List (K × V)) : Option V := (l.find? fun p => p.1 = k).map Prod.snd

@[simp] theorem lookup_nil (k : K) : lookup k ([] : List (K × V)) = none := rfl

theorem lookup_cons_self {p : K × V} {k : K} (hk : p.1 = k) (l : List (K × V)) :
    lookup k (p :: l) = some p.2 := by
  simp only [lookup, List.find?_cons, hk, decide_true, Option.map_some]

theorem lookup_cons_ne {p : K × V} {k : K} (hk : p.1 ≠ k) (l : List (K × V)) :
    lookup k (p :: l) = lookup k l := by
  simp only [lookup, List.find?_cons, hk, decide_false]

theorem lookup_of_not_mem {l : List (K × V)} {k : K} (h : k ∉ keys l) : lookup k l = none := by
  induction l with
  | nil => rfl
  | cons p l ih =>
    have hp : p.1 ≠ k := fun heq => h (heq ▸ List.mem_cons_self)
    rw [lookup_cons_ne hp, ih fun hl => h (List.mem_cons_of_mem _ hl)]

theorem lookup_of_mem {l : List (K × V)} (hnodup : (keys l).Nodup) {p : K × V} (h : p ∈ l) :
    lookup p.1 l = some p.2 := by
  induction l with
  | nil => exact absurd h List.not_mem_nil
  | cons q l ih =>
    obtain ⟨hq, hl⟩ := List.nodup_cons.mp hnodup
    rcases List.mem_cons.mp h with rfl | h
    · exact lookup_cons_self rfl l
    · have hne : q.1 ≠ p.1 := fun heq => hq (heq ▸ List.mem_map_of_mem h)
      rw [lookup_cons_ne hne, ih hl h]

/-- Looking a key up among the first `c` entries finds it when fewer than `c` entries precede it. -/
theorem lookup_take (l : List (K × V)) (k : K) (c : Nat) :
    lookup k (l.take c) =
      if ((keys l).takeWhile (· ≠ k)).length < c then lookup k l else none := by
  induction l generalizing c with
  | nil => simp only [List.take_nil, lookup_nil, ite_self]
  | cons p l ih =>
    cases c with
    | zero => simp only [List.take_zero, lookup_nil, Nat.not_lt_zero, ↓reduceIte]
    | succ c =>
      by_cases hk : p.1 = k
      · simp only [List.take_succ_cons, lookup_cons_self hk, keys, List.map_cons,
          List.takeWhile_cons, hk, ne_eq, not_true_eq_false, decide_false, Bool.false_eq_true,
          ↓reduceIte, List.length_nil, Nat.zero_lt_succ]
      · simp only [List.take_succ_cons, lookup_cons_ne hk, ih, keys, List.map_cons,
          List.takeWhile_cons, ne_eq, hk, not_false_eq_true, decide_true, ↓reduceIte,
          List.length_cons, Nat.add_lt_add_iff_right]

/-- Dropping another key does not change a lookup. -/
theorem lookup_filter_ne {l : List (K × V)} {k k' : K} (hk : k ≠ k') :
    lookup k (l.filter fun p => p.1 ≠ k') = lookup k l := by
  induction l with
  | nil => rfl
  | cons p l ih =>
    by_cases hp : p.1 = k'
    · have hne : p.1 ≠ k := fun h => hk (h.symm.trans hp)
      rw [filter_eq_cons hp, ih, lookup_cons_ne hne]
    · rw [filter_ne_cons hp]
      by_cases hpk : p.1 = k
      · rw [lookup_cons_self hpk, lookup_cons_self hpk]
      · rw [lookup_cons_ne hpk, lookup_cons_ne hpk, ih]

theorem lookup_touch (e : K × V) (l : List (K × V)) (k : K) :
    lookup k (touch e l) = if k = e.1 then some e.2 else lookup k l := by
  by_cases hk : k = e.1
  · rw [touch, lookup_cons_self hk.symm, if_pos hk]
  · rw [touch, lookup_cons_ne (Ne.symm hk), lookup_filter_ne hk, if_neg hk]

/-- The recency list has the newest value of each key. -/
theorem lookup_recent (log : List (K × V)) (k : K) : lookup k (recent log) = lookup k log := by
  induction log with
  | nil => rfl
  | cons e log ih =>
    rw [recent, lookup_touch, ih]
    by_cases hk : k = e.1
    · rw [if_pos hk, lookup_cons_self hk.symm]
    · rw [if_neg hk, lookup_cons_ne (Ne.symm hk)]

/-- The keys before `k` in the recency list are the keys touched since `k` was. -/
theorem mem_takeWhile_recent {log : List (K × V)} {k x : K} :
    x ∈ (keys (recent log)).takeWhile (· ≠ k) ↔ x ∈ (keys log).takeWhile (· ≠ k) := by
  induction log with
  | nil => exact Iff.rfl
  | cons e log ih =>
    rw [recent, keys_touch]
    by_cases hk : e.1 = k
    · simp only [keys, List.map_cons, List.takeWhile_cons, hk, ne_eq, not_true_eq_false,
        decide_false, Bool.false_eq_true, ↓reduceIte]
    · -- what the touch drops is not `k`, so the dropping commutes with the cut at `k`
      have hcut : (fun a => !decide (a ≠ e.1) || decide (a ≠ k)) = fun a => decide (a ≠ k) := by
        funext a
        by_cases ha : a = e.1
        · simp only [ha, ne_eq, not_true_eq_false, decide_false, Bool.not_false, Bool.true_or, hk,
            not_false_eq_true, decide_true]
        · simp only [ne_eq, ha, not_false_eq_true, decide_true, Bool.not_true, Bool.false_or]
      simp only [keys, List.map_cons, List.takeWhile_cons, ne_eq, hk, not_false_eq_true,
        decide_true, ↓reduceIte, List.mem_cons]
      rw [List.takeWhile_filter]
      simp only [ne_eq] at hcut ih
      rw [hcut, List.mem_filter, ih]
      by_cases hx : x = e.1
      · simp only [hx, true_or]
      · simp only [hx, not_false_eq_true, decide_true, and_true]

/-- **The place of a key.** Among the first `c` entries of the recency list, a key is found when
fewer than `c` distinct other keys were touched since it was, and then with its newest value. -/
theorem lookup_take_recent (log : List (K × V)) (k : K) (c : Nat) :
    lookup k ((recent log).take c) =
      if ((keys log).takeWhile (· ≠ k)).toFinset.card < c then lookup k log else none := by
  have hnodup : ((keys (recent log)).takeWhile (· ≠ k)).Nodup :=
    (nodup_recent log).sublist (List.takeWhile_sublist _)
  have hset : ((keys (recent log)).takeWhile (· ≠ k)).toFinset =
      ((keys log).takeWhile (· ≠ k)).toFinset := by
    ext x
    rw [List.mem_toFinset, List.mem_toFinset, mem_takeWhile_recent]
  rw [lookup_take, lookup_recent, ← List.toFinset_card_of_nodup hnodup, hset]

end Recency
