import LightSearch.Utility.LRUInvariant

/-!
# What holds of every entry

A fact about pairs that holds of everything a cache has, in its list and in its log, is kept by every
call that puts only such pairs: evictions, merges and replays make no pair up. The fact is `P`, and
`Filled P` is kept from any sound state, also from one that was loaded from a file with repeated keys.

`filled_call` is the step rule for several caches, and `Touched` says what one `get` or `put` of a
worker does to a sound cache, as the users of the log see it.
-/

set_option autoImplicit false

namespace LightSearch

open Cxx

variable {P : Str × Str → Prop}

namespace LRUCache

/-- A sound cache where `P` holds of every entry, the logged ones included. -/
structure Filled (P : Str × Str → Prop) (c : LRUCache) : Prop extends Sound c where
  listed : ∀ e ∈ c.entries, P e
  logged : ∀ e ∈ c.pendingUpdateList, P e

theorem filled_new {capacity : Nat} (h : 1 ≤ capacity) : (new capacity).Filled P where
  toSound := (valid_new h).toSound
  listed := fun _ he => absurd he List.not_mem_nil
  logged := fun _ he => absurd he List.not_mem_nil

theorem mem_promoted {c : LRUCache} {addr : Nat} {e e' : Str × Str}
    (h : e' ∈ (c.promoted addr e).entries) : e' = e ∨ e' ∈ c.entries := by
  rcases List.mem_cons.mp h with rfl | h
  · exact .inl rfl
  · exact .inr (List.map_subset _ (List.filter_subset_self _) h)

theorem mem_inserted {c : LRUCache} (hc : c.Sound) {e e' : Str × Str}
    (h : e' ∈ (c.inserted e).entries) : e' = e ∨ e' ∈ c.entries := by
  unfold inserted at h
  by_cases hfull : c.capacity < c.cachedData.length + 1
  · obtain ⟨kept, last, hsplit⟩ := hc.split_last hfull
    rw [if_pos hfull, pushFront_evicted hsplit] at h
    rcases List.mem_cons.mp h with rfl | h
    · exact .inl rfl
    · refine .inr ?_
      rw [entries, hsplit, List.map_append]
      exact List.mem_append_left _ h
  · rw [if_neg hfull] at h
    exact List.mem_cons.mp h

/-- Logging an entry that `P` holds of. -/
theorem Filled.log {c : LRUCache} (h : c.Sound) (listed : ∀ e ∈ c.entries, P e)
    (logged : ∀ e ∈ c.pendingUpdateList, P e) {e : Str × Str} (he : P e) (update : Bool) :
    (c.log e update).Filled P where
  toSound := h.log e update
  listed := by
    rw [log_entries]
    exact listed
  logged := by
    rw [log_pending]
    intro e' he'
    cases update with
    | true => exact logged e' he'
    | false =>
      rcases List.mem_cons.mp he' with rfl | he'
      · exact he
      · exact logged e' he'

/-- What a `get` or `put` does to the rest of a cache: the capacity stays, and the log gets at most
one entry, at its front. -/
structure Touched (c c' : LRUCache) (added : List (Str × Str)) : Prop where
  capacity_eq : c'.capacity = c.capacity
  pending_eq : c'.pendingUpdateList = added ++ c.pendingUpdateList

/-- **`get` on a filled cache** returns nothing, or a value that `P` relates to the key; it logs an
entry when the key is in the map. -/
theorem get_filled {c : LRUCache} (h : c.Filled P) (key : Str) :
    ∃ c' val added, c.get key = .ok (c', val) ∧ c'.Filled P ∧ Touched c c' added ∧
      (val = [] ∨ P (key, val)) ∧ (added = [] ↔ c.keyExist key = .atEnd) ∧ added.length ≤ 1 := by
  rcases get_cases h.toSound key with ⟨hmiss, hget⟩ | ⟨n, hn, rfl, hhit, hget⟩
  · exact ⟨c, [], [], hget, h, ⟨rfl, rfl⟩, .inl rfl, iff_of_true rfl hmiss, Nat.zero_le 1⟩
  · have hP : P n.elem := h.listed _ (List.mem_map_of_mem hn)
    refine ⟨_, _, [n.elem], hget, ?_, ⟨?_, ?_⟩, .inr hP, ?_, Nat.le_refl 1⟩
    · refine Filled.log (h.toSound.promoted hn rfl) (fun e he => ?_) h.logged hP false
      rcases mem_promoted he with rfl | he
      · exact hP
      · exact h.listed e he
    · rw [log_capacity, promoted_capacity]
    · rw [log_pending, promoted_pending]
      rfl
    · refine iff_of_false (List.cons_ne_nil _ _) ?_
      rw [hhit]
      exact ListIter.noConfusion

/-- **`put` on a filled cache** of a pair that `P` holds of. -/
theorem put_filled {c : LRUCache} (h : c.Filled P) {key val : Str} (hP : P (key, val))
    (update : Bool) :
    ∃ c', c.put key val update = .ok c' ∧ c'.Filled P ∧
      Touched c c' (if update then [] else [(key, val)]) := by
  rcases put_cases h.toSound key val update with ⟨hmiss, hput⟩ | ⟨n, hn, hkey, -, hput⟩
  · refine ⟨_, hput, ?_, ?_, ?_⟩
    · refine Filled.log (h.toSound.inserted _) (fun e he => ?_)
        (by rw [inserted_pending]; exact h.logged) hP update
      rcases mem_inserted h.toSound he with rfl | he
      · exact hP
      · exact h.listed e he
    · rw [log_capacity, inserted_capacity]
    · rw [log_pending, inserted_pending]
      cases update <;> rfl
  · refine ⟨_, hput, ?_, ?_, ?_⟩
    · refine Filled.log (h.toSound.promoted hn hkey) (fun e he => ?_) h.logged hP update
      rcases mem_promoted he with rfl | he
      · exact hP
      · exact h.listed e he
    · rw [log_capacity, promoted_capacity]
    · rw [log_pending, promoted_pending]
      cases update <;> rfl

/-- **`update` on a filled cache** from a log of such pairs; the cache's own log stays. -/
theorem update_filled {c : LRUCache} (h : c.Filled P) {pending : List (Str × Str)}
    (hpending : ∀ e ∈ pending, P e) :
    ∃ c', c.update pending = .ok c' ∧ c'.Filled P ∧ Touched c c' [] := by
  have step : ∀ (d : LRUCache) (e : Str × Str), (d.Filled P ∧ Touched c d []) → P e →
      ∃ d', d.put e.1 e.2 true = .ok d' ∧ d'.Filled P ∧ Touched c d' [] := by
    rintro d e ⟨hd, hkept⟩ he
    obtain ⟨d', hput, hd', htouched⟩ := put_filled hd he true
    exact ⟨d', hput, hd', htouched.capacity_eq.trans hkept.capacity_eq,
      htouched.pending_eq.trans hkept.pending_eq⟩
  exact Run.run_total (fun d => d.Filled P ∧ Touched c d []) P step ⟨h, rfl, rfl⟩ pending.reverse
    fun e he => hpending e (List.mem_reverse.mp he)

theorem Filled.with_pending {c : LRUCache} (h : c.Filled P) {pending : List (Str × Str)}
    (hpending : ∀ e ∈ pending, P e) :
    ({ c with pendingUpdateList := pending } : LRUCache).Filled P where
  capacity_pos := h.capacity_pos
  addrs_nodup := h.addrs_nodup
  addrs_lt := h.addrs_lt
  live := h.live
  listed := h.listed
  logged := hpending

theorem Filled.cleared {c : LRUCache} (h : c.Filled P) : c.clearPendingList.Filled P :=
  h.with_pending fun _ he => absurd he List.not_mem_nil

end LRUCache

/-! ## Several caches -/

/-- A call puts only pairs that `P` holds of. -/
def Call.Puts {n : Nat} (P : Str × Str → Prop) : Call n → Prop
  | .put _ key val _ => P (key, val)
  | .get .. => True
  | .update .. => True
  | .mergePendingList .. => True
  | .clearPendingList .. => True

/-- Each cache is filled. -/
def Caches.Filled {n : Nat} (P : Str × Str → Prop) (caches : Caches n) : Prop :=
  ∀ i, (caches i).Filled P

theorem Caches.Filled.set {n : Nat} {caches : Caches n} (h : caches.Filled P) (i : Fin n)
    {c : LRUCache} (hc : c.Filled P) : Caches.Filled P (Function.update caches i c) := by
  intro j
  by_cases hj : j = i
  · rw [hj, Function.update_self]
    exact hc
  · rw [Function.update_of_ne hj]
    exact h j

/-- **Every call on filled caches** that puts only such pairs succeeds and keeps them filled. -/
theorem filled_call {n : Nat} {caches : Caches n} (h : caches.Filled P) {op : Call n}
    (hop : op.Puts P) : ∃ caches', call caches op = .ok caches' ∧ caches'.Filled P := by
  cases op with
  | get i key =>
    obtain ⟨c', val, added, hget, hc', -⟩ := LRUCache.get_filled (h i) key
    exact ⟨_, by simp only [call, Caches.get, hget, Except.ok_bind], h.set i hc'⟩
  | put i key val update =>
    obtain ⟨c', hput, hc', -⟩ := LRUCache.put_filled (h i) hop update
    exact ⟨_, by simp only [call, Caches.put, hput, Except.ok_bind], h.set i hc'⟩
  | update i other =>
    obtain ⟨c', hupdate, hc', -⟩ := LRUCache.update_filled (h i) (h other).logged
    exact ⟨_, by simp only [call, Caches.update, hupdate, Except.ok_bind], h.set i hc'⟩
  | mergePendingList i other =>
    refine ⟨_, rfl, ?_⟩
    by_cases hne : i = other
    · rw [Caches.mergePendingList, if_pos hne]
      exact h
    · rw [caches.mergePendingList_of_ne hne]
      refine (h.set i ((h i).with_pending fun e he => ?_)).set other (h other).cleared
      rcases List.mem_append.mp he with he | he
      · exact (h i).logged e he
      · exact (h other).logged e he
  | clearPendingList i => exact ⟨_, rfl, h.set i (h i).cleared⟩

end LightSearch
