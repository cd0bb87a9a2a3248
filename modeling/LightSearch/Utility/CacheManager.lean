import LightSearch.Utility.CacheFile
import Mathlib.Data.List.FinRange

/-!
# The caches of all workers

`CacheManager` holds one cache for each worker and the backup file. Between two updates each worker
uses its own cache, and the caches drift apart. `updateCache` brings them together again: it merges
all logs into the log of cache 0, replays that log on every cache, and clears the logs.

The calls of its three loops are listed by `updateCalls`, so that the same list serves here, where
they run one after the other, and where other calls may come in between.

Why the caches are equal afterwards (`caches_converge`): what a cache did since the last update is a
bounded replay of its own log on the common list (`Drifted`). By the stack property this is the cut
of the unbounded replay, and the merged log mentions every key of the cache's own log. So the second
replay forgets how the first one went, and each cache ends as the cut of the merged log's replay on
the common list.
-/

set_option autoImplicit false

namespace LightSearch

open Cxx

/-- The caches of `m + 1` workers, and the contents of the file at `_path`. -/
structure CacheManager (m : Nat) where
  caches : Caches (m + 1)
  file : Str

/-- `initCache(size, filename)` with `size = m + 1` and the contents of the file: the capacity of each
cache is the number of caches. -/
def initCache (m : Nat) (file : Str) : CacheManager m :=
  { caches := fun _ => (LRUCache.new (m + 1)).readFromFile file, file := file }

/-- Whatever the file, the caches that `initCache` makes are sound and have empty logs. -/
theorem initCache_sound (m : Nat) (file : Str) (i : Fin (m + 1)) :
    ((initCache m file).caches i).Sound ∧ ((initCache m file).caches i).pendingUpdateList = [] :=
  ⟨LRUCache.sound_readFromFile (Nat.succ_pos m) file, LRUCache.readFromFile_pending (m + 1) file⟩

/-- The cache that the logs are merged into: `_caches[0]`. -/
abbrev mainCache {m : Nat} : Fin (m + 1) := 0

/-- The calls of the three loops of `updateCache`, in their order. -/
def updateCalls (m : Nat) : List (Call (m + 1)) :=
  (List.finRange m).map (fun i => .mergePendingList mainCache i.succ) ++
    ((List.finRange (m + 1)).map (fun i => .update i mainCache) ++
      (List.finRange (m + 1)).map .clearPendingList)

/-- `updateCache`: the three loops, and then cache 0 is written to the file. -/
def updateCache {m : Nat} (s : CacheManager m) : Except Fault (CacheManager m) := do
  let caches ← Run.run call s.caches (updateCalls m)
  .ok { caches := caches, file := (caches mainCache).writeToFile }

variable {m : Nat}

/-- The calls of an update, and no others. -/
theorem updateCalls_cases {op : Call (m + 1)} (h : op ∈ updateCalls m) :
    (∃ k : Fin m, op = .mergePendingList 0 k.succ) ∨ (∃ j, op = .update j 0) ∨
      ∃ i, op = .clearPendingList i := by
  rcases List.mem_append.mp h with h | h
  · obtain ⟨k, -, rfl⟩ := List.mem_map.mp h
    exact .inl ⟨k, rfl⟩
  · rcases List.mem_append.mp h with h | h
    · obtain ⟨j, -, rfl⟩ := List.mem_map.mp h
      exact .inr (.inl ⟨j, rfl⟩)
    · obtain ⟨i, -, rfl⟩ := List.mem_map.mp h
      exact .inr (.inr ⟨i, rfl⟩)

/-! ## The three loops -/

/-- The log of cache 0 after the logs of some other caches were merged into it. -/
def mergedLog (caches : Caches (m + 1)) (others : List (Fin m)) : List (Str × Str) :=
  (caches 0).pendingUpdateList ++ others.flatMap fun i => (caches i.succ).pendingUpdateList

/-- The first loop moves the logs to cache 0, in the order of the caches. -/
theorem run_merges (caches : Caches (m + 1)) {others : List (Fin m)} (hnodup : others.Nodup) :
    ∃ caches', Run.run call caches (others.map fun i => .mergePendingList 0 i.succ) = .ok caches' ∧
      caches' 0 = { caches 0 with pendingUpdateList := mergedLog caches others } ∧
      ∀ i : Fin m, caches' i.succ =
        if i ∈ others then (caches i.succ).clearPendingList else caches i.succ := by
  induction others generalizing caches with
  | nil =>
    refine ⟨caches, rfl, ?_, fun i => (if_neg List.not_mem_nil).symm⟩
    rw [mergedLog, List.flatMap_nil, List.append_nil]
  | cons j others ih =>
    obtain ⟨hj, hothers⟩ := List.nodup_cons.mp hnodup
    -- the caches after the first merge
    have hbase : caches.mergePendingList 0 j.succ 0 =
        { caches 0 with pendingUpdateList := mergedLog caches [j] } := by
      rw [caches.mergePendingList_of_ne (Fin.succ_ne_zero j).symm,
        Function.update_of_ne (Fin.succ_ne_zero j).symm, Function.update_self, mergedLog,
        List.flatMap_singleton]
    have hother : ∀ i : Fin m, caches.mergePendingList 0 j.succ i.succ =
        if i = j then (caches i.succ).clearPendingList else caches i.succ := by
      intro i
      rw [caches.mergePendingList_of_ne (Fin.succ_ne_zero j).symm]
      by_cases hi : i = j
      · rw [if_pos hi, hi, Function.update_self]
      · rw [if_neg hi, Function.update_of_ne (fun h => hi (Fin.succ_injective _ h)),
          Function.update_of_ne (Fin.succ_ne_zero i)]
    obtain ⟨caches', hrun, hzero, hsucc⟩ := ih (caches.mergePendingList 0 j.succ) hothers
    refine ⟨caches', hrun, ?_, fun i => ?_⟩
    · have hrest : (others.flatMap fun i =>
          (caches.mergePendingList 0 j.succ i.succ).pendingUpdateList) =
            others.flatMap fun i => (caches i.succ).pendingUpdateList := by
        refine List.flatMap_congr fun i hi => ?_
        have hne : i ≠ j := fun heq => hj (heq ▸ hi)
        rw [hother, if_neg hne]
      rw [hzero, mergedLog, hrest, hbase]
      simp only [mergedLog, List.flatMap_cons, List.flatMap_nil, List.append_nil, List.append_assoc]
    · rw [hsucc, hother]
      by_cases hi : i = j
      · rw [if_neg (hi ▸ hj), if_pos hi, if_pos (hi ▸ List.mem_cons_self)]
      · simp only [List.mem_cons, hi, false_or, if_false]

/-- The second loop replays the log of cache 0 on the caches it names, and changes no log. -/
theorem run_updates {capacity : Fin (m + 1) → Nat} {caches : Caches (m + 1)}
    (h : caches.Valid capacity) {targets : List (Fin (m + 1))} (hnodup : targets.Nodup) :
    ∃ caches', Run.run call caches (targets.map fun i => .update i 0) = .ok caches' ∧
      caches'.Valid capacity ∧
      (∀ i, (caches' i).pendingUpdateList = (caches i).pendingUpdateList) ∧
      ∀ i, (caches' i).entries =
        if i ∈ targets then
          Recency.replayBounded (capacity i) (caches 0).pendingUpdateList.reverse (caches i).entries
        else (caches i).entries := by
  induction targets generalizing caches with
  | nil => exact ⟨caches, rfl, h, fun _ => rfl, fun i => (if_neg List.not_mem_nil).symm⟩
  | cons j targets ih =>
    obtain ⟨hj, htargets⟩ := List.nodup_cons.mp hnodup
    obtain ⟨c', hupdate, hc', hcap, hpending, hentries⟩ :=
      LRUCache.update_valid (h j).1 (caches 0).pendingUpdateList
    have hset := h.set (i := j) hc' hcap
    have hlogs : ∀ i, (Function.update caches j c' i).pendingUpdateList =
        (caches i).pendingUpdateList := by
      intro i
      by_cases hi : i = j
      · rw [hi, Function.update_self, hpending]
      · rw [Function.update_of_ne hi]
    obtain ⟨caches', hrun, hvalid, hpending', hentries'⟩ := ih hset htargets
    refine ⟨caches', ?_, hvalid, fun i => (hpending' i).trans (hlogs i), fun i => ?_⟩
    · have hcall : call caches (.update j 0) = .ok (Function.update caches j c') := by
        simp only [call, Caches.update, hupdate, Except.ok_bind]
      rw [List.map_cons, Run.run_cons, hcall, Except.ok_bind, hrun]
    · rw [hentries', hlogs]
      by_cases hi : i = j
      · rw [if_neg (hi ▸ hj), if_pos (hi ▸ List.mem_cons_self), hi, Function.update_self, hentries,
          (h j).2]
      · simp only [Function.update_of_ne hi, List.mem_cons, hi, false_or]

/-- The third loop clears the logs of the caches it names. -/
theorem run_clears (caches : Caches (m + 1)) (targets : List (Fin (m + 1))) :
    ∃ caches', Run.run call caches (targets.map .clearPendingList) = .ok caches' ∧
      ∀ i, caches' i = if i ∈ targets then (caches i).clearPendingList else caches i := by
  induction targets generalizing caches with
  | nil => exact ⟨caches, rfl, fun i => (if_neg List.not_mem_nil).symm⟩
  | cons j targets ih =>
    obtain ⟨caches', hrun, hclear⟩ := ih (caches.clearPendingList j)
    refine ⟨caches', hrun, fun i => ?_⟩
    rw [hclear, Caches.clearPendingList]
    by_cases hi : i = j
    · rw [hi, Function.update_self, if_pos List.mem_cons_self]
      split <;> rfl
    · simp only [Function.update_of_ne hi, List.mem_cons, hi, false_or]

/-- **What `updateCache` does**: every cache replays the merged log and has an empty log, and the file
has the entries of cache 0. -/
theorem updateCache_valid {capacity : Fin (m + 1) → Nat} {s : CacheManager m}
    (h : s.caches.Valid capacity) :
    ∃ s', updateCache s = .ok s' ∧ s'.caches.Valid capacity ∧
      s'.file = (s'.caches 0).writeToFile ∧
      ∀ i, (s'.caches i).pendingUpdateList = [] ∧
        (s'.caches i).entries = Recency.replayBounded (capacity i)
          (mergedLog s.caches (List.finRange m)).reverse (s.caches i).entries := by
  obtain ⟨merged, hmerge, hzero, hsucc⟩ := run_merges s.caches (List.nodup_finRange m)
  have hmerged : ∀ i, (merged i).entries = (s.caches i).entries := by
    refine Fin.cases (by rw [hzero]; rfl) fun i => ?_
    rw [hsucc, if_pos (List.mem_finRange i)]
    rfl
  have hvalid : merged.Valid capacity := by
    refine Fin.cases (hzero ▸ ⟨(h 0).1.with_pending _, (h 0).2⟩) fun i => ?_
    rw [hsucc, if_pos (List.mem_finRange i)]
    exact ⟨(h i.succ).1.with_pending [], (h i.succ).2⟩
  obtain ⟨updated, hupdate, hvalid', -, hentries⟩ :=
    run_updates hvalid (List.nodup_finRange (m + 1))
  obtain ⟨cleared, hclear, hcleared⟩ := run_clears updated (List.finRange (m + 1))
  have hlast : ∀ i, cleared i = (updated i).clearPendingList := fun i => by
    rw [hcleared, if_pos (List.mem_finRange i)]
  refine ⟨⟨cleared, (cleared 0).writeToFile⟩, ?_, fun i => ?_, rfl, fun i => ?_⟩
  · simp only [updateCache, updateCalls, Run.run_append, hmerge, hupdate, hclear, Except.ok_bind]
  · show (cleared i).Valid ∧ (cleared i).capacity = capacity i
    rw [hlast]
    exact ⟨(hvalid' i).1.with_pending [], (hvalid' i).2⟩
  · show (cleared i).pendingUpdateList = [] ∧ (cleared i).entries = _
    rw [hlast]
    refine ⟨rfl, ?_⟩
    show (updated i).entries = _
    rw [hentries, if_pos (List.mem_finRange i), hzero, hmerged]

/-! ## Convergence -/

/-- A call that a worker makes on its cache between two updates. -/
def Call.Local {n : Nat} : Call n → Prop
  | .get .. => True
  | .put _ _ _ fromUpdate => fromUpdate = false
  | .update .. => False
  | .mergePendingList .. => False
  | .clearPendingList .. => False

/-- A round: local calls, and then an update. -/
def round (s : CacheManager m) (calls : List (Call (m + 1))) : Except Fault (CacheManager m) := do
  let caches ← Run.run call s.caches calls
  updateCache { s with caches := caches }

/-- All caches hold one list, and no log has an entry. -/
def Converged (capacity : Nat) (list : List (Str × Str)) (caches : Caches (m + 1)) : Prop :=
  ∀ i, (caches i).Valid ∧ (caches i).capacity = capacity ∧ (caches i).entries = list ∧
    (caches i).pendingUpdateList = []

/-- Since the caches held one list, each of them has replayed its own log on it. -/
def Drifted (capacity : Nat) (list : List (Str × Str)) (caches : Caches (m + 1)) : Prop :=
  caches.Valid (fun _ => capacity) ∧
    ∀ i, (caches i).entries =
      Recency.replayBounded capacity (caches i).pendingUpdateList.reverse list

theorem Converged.drifted {capacity : Nat} {list : List (Str × Str)} {caches : Caches (m + 1)}
    (h : Converged capacity list caches) : Drifted capacity list caches := by
  refine ⟨fun i => ⟨(h i).1, (h i).2.1⟩, fun i => ?_⟩
  rw [(h i).2.2.1, (h i).2.2.2]
  rfl

/-- Replaying one more entry. -/
theorem replayBounded_cons (capacity : Nat) (e : Str × Str) (log list : List (Str × Str)) :
    Recency.replayBounded capacity (e :: log).reverse list =
      (Recency.touch e (Recency.replayBounded capacity log.reverse list)).take capacity := by
  rw [List.reverse_cons, Recency.replayBounded, List.foldl_append]
  rfl

theorem Drifted.set {capacity : Nat} {list : List (Str × Str)} {caches : Caches (m + 1)}
    (h : Drifted capacity list caches) {i : Fin (m + 1)} {c : LRUCache} (hc : c.Valid)
    (hcap : c.capacity = (caches i).capacity)
    (hentries : c.entries = Recency.replayBounded capacity c.pendingUpdateList.reverse list) :
    Drifted capacity list (Function.update caches i c) := by
  refine ⟨h.1.set hc hcap, fun j => ?_⟩
  by_cases hj : j = i
  · rw [hj, Function.update_self, hentries]
  · rw [Function.update_of_ne hj, h.2]

/-- **Every effective local touch is logged**: local calls keep each cache a replay of its log. -/
theorem drifted_call {capacity : Nat} {list : List (Str × Str)} {caches : Caches (m + 1)}
    (h : Drifted capacity list caches) {op : Call (m + 1)} (hop : op.Local) :
    ∃ caches', call caches op = .ok caches' ∧ Drifted capacity list caches' := by
  cases op with
  | get i key =>
    obtain ⟨c', hget, hc', hcap, hcase⟩ := LRUCache.get_valid (h.1 i).1 key
    refine ⟨_, by simp only [call, Caches.get, hget, Except.ok_bind], h.set hc' hcap ?_⟩
    cases hfound : Recency.lookup key (caches i).entries with
    | none =>
      rw [hfound] at hcase
      subst hcase
      exact h.2 i
    | some val =>
      rw [hfound] at hcase
      have hlen := hc'.entries_length
      rw [hcap, (h.1 i).2] at hlen
      rw [hcase.2, replayBounded_cons, ← h.2 i, ← hcase.1, List.take_of_length_le hlen]
  | put i key val update =>
    obtain ⟨c', hput, hc', hcap, hentries, hpending⟩ :=
      LRUCache.put_valid (h.1 i).1 key val update
    refine ⟨_, by simp only [call, Caches.put, hput, Except.ok_bind], h.set hc' hcap ?_⟩
    obtain rfl : update = false := hop
    rw [hpending, if_neg Bool.false_ne_true, replayBounded_cons, ← h.2 i, hentries, (h.1 i).2]
  | update => exact hop.elim
  | mergePendingList => exact hop.elim
  | clearPendingList => exact hop.elim

/-- The merged log mentions every key that a cache's own log does. -/
theorem mem_mergedLog (caches : Caches (m + 1)) (i : Fin (m + 1)) {e : Str × Str}
    (he : e ∈ (caches i).pendingUpdateList) : e ∈ mergedLog caches (List.finRange m) := by
  revert he
  refine Fin.cases (fun he => List.mem_append_left _ he) (fun i he => ?_) i
  exact List.mem_append_right _ (List.mem_flatMap.mpr ⟨i, List.mem_finRange i, he⟩)

/-- Replaying the merged log on a drifted cache gives the cut of its replay on the common list. -/
theorem replay_merged {capacity : Nat} (hpos : 1 ≤ capacity) {list : List (Str × Str)}
    (hnodup : (Recency.keys list).Nodup) (hlen : list.length ≤ capacity)
    {own merged : List (Str × Str)} (hsub : ∀ e ∈ own, e ∈ merged) :
    Recency.replayBounded capacity merged.reverse
        (Recency.replayBounded capacity own.reverse list) =
      (Recency.replay merged.reverse list).take capacity := by
  have hkeys : ∀ k ∈ Recency.keys own, k ∈ Recency.keys merged := fun k hk => by
    obtain ⟨e, he, rfl⟩ := List.mem_map.mp hk
    exact List.mem_map_of_mem (hsub e he)
  calc Recency.replayBounded capacity merged.reverse
        (Recency.replayBounded capacity own.reverse list)
      = Recency.replayBounded capacity merged.reverse
          ((Recency.replay own.reverse list).take capacity) := by
        rw [← Recency.take_replay own.reverse hnodup hpos, List.take_of_length_le hlen]
    _ = (Recency.replay merged.reverse (Recency.replay own.reverse list)).take capacity :=
        Recency.take_replay merged.reverse (Recency.nodup_replay hnodup) hpos
    _ = (Recency.replay merged.reverse list).take capacity := by
        rw [Recency.replay_congr (Recency.filter_replay hkeys list)]

/-- One round brings the caches together again, on a list without repeated keys that is not too
long. -/
theorem converged_round {capacity : Nat} {list : List (Str × Str)} {s : CacheManager m}
    (h : Converged capacity list s.caches) {calls : List (Call (m + 1))}
    (hcalls : ∀ op ∈ calls, op.Local) :
    ∃ s' list', round s calls = .ok s' ∧ Converged capacity list' s'.caches := by
  obtain ⟨drifted, hrun, hdrift⟩ := Run.run_total (Drifted capacity list) Call.Local
    (fun _ _ hs hop => drifted_call hs hop) h.drifted calls hcalls
  obtain ⟨s', hupdate, hvalid, -, hcaches⟩ :=
    updateCache_valid (s := { s with caches := drifted }) hdrift.1
  have hpos : 1 ≤ capacity := (h 0).2.1 ▸ (h 0).1.capacity_pos
  have hnodup : (Recency.keys list).Nodup := by
    have := (h 0).1.keys_nodup
    rwa [LRUCache.keys_eq, (h 0).2.2.1] at this
  have hlen : list.length ≤ capacity := by
    have := (h 0).1.entries_length
    rwa [(h 0).2.2.1, (h 0).2.1] at this
  refine ⟨s', (Recency.replay (mergedLog drifted (List.finRange m)).reverse list).take capacity,
    by simp only [round, hrun, hupdate, Except.ok_bind], fun i =>
    ⟨(hvalid i).1, (hvalid i).2, ?_, (hcaches i).1⟩⟩
  rw [(hcaches i).2]
  show Recency.replayBounded capacity _ (drifted i).entries = _
  rw [hdrift.2 i, replay_merged hpos hnodup hlen fun e he => mem_mergedLog drifted i he]

/-- **Cache convergence.** From caches of one capacity that hold one list and have empty logs, every
run of rounds succeeds, and after each round all caches hold one list again, their logs empty. The
list has no repeated key and at most `capacity` entries. -/
theorem caches_converge {capacity : Nat} {list : List (Str × Str)} {s : CacheManager m}
    (h : Converged capacity list s.caches) (rounds : List (List (Call (m + 1))))
    (hrounds : ∀ calls ∈ rounds, ∀ op ∈ calls, op.Local) :
    ∃ s' list', Run.run round s rounds = .ok s' ∧ (Recency.keys list').Nodup ∧
      list'.length ≤ capacity ∧ Converged capacity list' s'.caches := by
  obtain ⟨s', hrun, list', hlist'⟩ := Run.run_total
    (fun s : CacheManager m => ∃ list, Converged capacity list s.caches) (fun calls => ∀ op ∈ calls, op.Local)
    (fun s calls ⟨_, hs⟩ hcalls => by
      obtain ⟨s', list', hround, hs'⟩ := converged_round hs hcalls
      exact ⟨s', hround, list', hs'⟩)
    ⟨list, h⟩ rounds hrounds
  obtain ⟨hvalid, hcap, hentries, -⟩ := hlist' 0
  refine ⟨s', list', hrun, ?_, ?_, hlist'⟩
  · rw [← hentries, ← LRUCache.keys_eq]
    exact hvalid.keys_nodup
  · rw [← hentries, ← hcap]
    exact hvalid.entries_length

theorem converged_new {capacity : Nat} (h : 1 ≤ capacity) :
    Converged capacity [] (fun _ : Fin (m + 1) => LRUCache.new capacity) :=
  fun _ => ⟨LRUCache.valid_new h, rfl, rfl, rfl⟩

/-- Two new caches of capacity one, which disagree before each of two updates. -/
theorem caches_converge_two :
    let s : CacheManager 1 := { caches := fun _ => LRUCache.new 1, file := [] }
    let rounds : List (List (Call 2)) :=
      [[.put 0 (lit "a") (lit "1") false, .put 1 (lit "b") (lit "2") false, .get 1 (lit "b")],
        [.get 1 (lit "b"), .put 0 (lit "c") (lit "3") false]]
    (Converged 1 [] s.caches ∧ ∀ calls ∈ rounds, ∀ op ∈ calls, op.Local) ∧
    ∃ s' list', Run.run round s rounds = .ok s' ∧ (Recency.keys list').Nodup ∧
      list'.length ≤ 1 ∧ Converged 1 list' s'.caches := by
  intro s rounds
  have hrounds : ∀ calls ∈ rounds, ∀ op ∈ calls, op.Local := by
    simp only [rounds, List.mem_cons, List.not_mem_nil, or_false, forall_eq_or_imp, forall_eq,
      Call.Local, and_self]
  have hnew : Converged 1 [] s.caches := converged_new (Nat.le_refl 1)
  exact ⟨⟨hnew, hrounds⟩, caches_converge hnew rounds hrounds⟩

end LightSearch
