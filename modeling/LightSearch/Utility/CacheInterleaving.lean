import LightSearch.Utility.CacheManager
import LightSearch.Utility.LRUContents
import Mathlib.Data.Finset.Basic
import Mathlib.Data.Fintype.Basic

/-!
# Updates while the workers run

The timer of the event loop runs `updateCache` on a thread of its own, with no lock, and the workers
call `get` and `put` on their caches all the while. Each call is one step here. The timer goes
through `updateCalls` one call at a time (`todo` is what is left of the current update), and between
two of its steps any worker may take any number of steps.

The question is whether a logged entry can be cleared before every cache has replayed it. To ask it,
the state carries an account beside the caches: each logged entry has a tag of its own, `applied`
has the tags a cache has replayed, and `lost` has the entries that a clear dropped too early. The
account never steers the caches, and its logs are the caches' logs (`Accounted.inStep`).

An entry can be lost: the log of cache `i` is taken up once in each update, by the merge into cache 0
or, for cache 0 itself, by the first replay. What a worker logs after that and before the clear is
dropped with the rest (`Window`). Nothing is lost exactly in the runs that log nothing in a window
(`lost_iff`).
-/

set_option autoImplicit false

namespace LightSearch

open Cxx

deriving instance DecidableEq for Call

/-- A call of the worker that owns cache `i`, or the next step of the timer. -/
inductive Action (m : Nat) where
  | get (i : Fin (m + 1)) (key : Str)
  | put (i : Fin (m + 1)) (key val : Str)
  | timer

/-- A logged entry and its tag. -/
abbrev Tagged := Nat × (Str × Str)

/-- The caches, the calls left of the current update, and the account. -/
structure Interleaving (m : Nat) where
  caches : Caches (m + 1)
  todo : List (Call (m + 1))
  logs : Fin (m + 1) → List Tagged
  nextTag : Nat
  applied : Fin (m + 1) → Finset Nat
  lost : List Tagged

namespace Interleaving

variable {m : Nat}

/-- Caches with empty logs, and no update under way. -/
def start (caches : Caches (m + 1)) : Interleaving m :=
  { caches := caches, todo := [], logs := fun _ => [], nextTag := 0, applied := fun _ => ∅,
    lost := [] }

/-- The entries that a call put in front of a log. -/
def added (before after : List (Str × Str)) : List (Str × Str) :=
  after.take (after.length - before.length)

/-- The account after a worker's call on cache `i`: what the call logged gets a fresh tag. -/
def record (s : Interleaving m) (i : Fin (m + 1)) (caches : Caches (m + 1)) : Interleaving m :=
  { s with
    caches := caches
    logs := Function.update s.logs i
      ((added (s.caches i).pendingUpdateList (caches i).pendingUpdateList).map (s.nextTag, ·) ++
        s.logs i)
    nextTag := s.nextTag + 1 }

/-- The account after a call of the timer. -/
def account (s : Interleaving m) : Call (m + 1) → Interleaving m
  | .mergePendingList i other =>
    if i = other then s
    else
      { s with
        logs := Function.update (Function.update s.logs i (s.logs i ++ s.logs other)) other [] }
  | .update i other =>
    { s with
      applied := Function.update s.applied i
        (s.applied i ∪ ((s.logs other).map Prod.fst).toFinset) }
  | .clearPendingList i =>
    { s with
      logs := Function.update s.logs i []
      lost := s.lost ++ (s.logs i).filter fun e => ∃ j, e.1 ∉ s.applied j }
  -- `updateCache` has no other call
  | .get .. => s
  | .put .. => s

/-- One step: a worker's call, the timer firing, or the next call of `updateCache`. -/
def step (s : Interleaving m) : Action m → Except Fault (Interleaving m)
  | .get i key => do
    let caches ← call s.caches (.get i key)
    .ok (s.record i caches)
  | .put i key val => do
    let caches ← call s.caches (.put i key val false)
    .ok (s.record i caches)
  | .timer =>
    match s.todo with
    | [] => .ok { s with todo := updateCalls m }
    | op :: todo => do
      let caches ← call s.caches op
      .ok { s.account op with caches := caches, todo := todo }

/-- The timer's call that takes up the log of cache `i`. -/
def taker (i : Fin (m + 1)) : Call (m + 1) :=
  if i = mainCache then .update mainCache mainCache else .mergePendingList mainCache i

/-- The current update has taken up the log of cache `i` and will clear it. -/
def Window (s : Interleaving m) (i : Fin (m + 1)) : Prop :=
  taker i ∉ s.todo ∧ .clearPendingList i ∈ s.todo

/-- The step logs nothing in a window: it is no `put` there, and no `get` that finds its key. -/
def Safe (s : Interleaving m) : Action m → Prop
  | .get i key => (s.caches i).keyExist key = .atEnd ∨ ¬ s.Window i
  | .put i _ _ => ¬ s.Window i
  | .timer => True

/-! ## The order of the calls -/

/-- The stage of a call in `updateCache`: the merges, the first replay, the other replays, the
clears. -/
def stage : Call (m + 1) → Nat
  | .mergePendingList .. => 0
  | .update i _ => if i = mainCache then 1 else 2
  | .clearPendingList _ => 3
  | .get .. => 0
  | .put .. => 0

theorem stage_sorted : (updateCalls m).Pairwise fun a b => stage a ≤ stage b := by
  have hrange : (List.finRange (m + 1)).Pairwise fun i j => i < j := List.pairwise_lt_finRange (m + 1)
  unfold updateCalls
  refine List.pairwise_append.mpr ⟨?_, List.pairwise_append.mpr ⟨?_, ?_, ?_⟩, ?_⟩
  · exact List.pairwise_map.mpr (List.pairwise_of_forall fun _ _ => Nat.le_refl 0)
  · refine List.pairwise_map.mpr (hrange.imp fun {i j} hlt => ?_)
    have hj : j ≠ 0 := Fin.pos_iff_ne_zero.mp (Nat.lt_of_le_of_lt (Nat.zero_le _) hlt)
    simp only [stage, if_neg hj]
    split <;> omega
  · exact List.pairwise_map.mpr (List.pairwise_of_forall fun _ _ => Nat.le_refl 3)
  · intro a ha b hb
    obtain ⟨i, -, rfl⟩ := List.mem_map.mp ha
    obtain ⟨j, -, rfl⟩ := List.mem_map.mp hb
    unfold stage
    dsimp only
    split <;> omega
  · intro a ha b _
    obtain ⟨i, -, rfl⟩ := List.mem_map.mp ha
    exact Nat.zero_le _

theorem merge_mem (k : Fin m) : Call.mergePendingList 0 k.succ ∈ updateCalls m :=
  List.mem_append_left _ (List.mem_map_of_mem (List.mem_finRange k))

theorem update_mem (j : Fin (m + 1)) : Call.update j 0 ∈ updateCalls m :=
  List.mem_append_right _ (List.mem_append_left _
    (List.mem_map_of_mem (f := fun i => Call.update i 0) (List.mem_finRange j)))

/-- What comes later in an update than a call that is still to come is still to come. -/
theorem later_mem {todo : List (Call (m + 1))} (h : todo <:+ updateCalls m) {a b : Call (m + 1)}
    (ha : a ∈ todo) (hb : b ∈ updateCalls m) (hlt : stage a < stage b) : b ∈ todo := by
  obtain ⟨done, hsplit⟩ := h
  have hsorted := stage_sorted (m := m)
  rw [← hsplit] at hb hsorted
  rcases List.mem_append.mp hb with hb | hb
  · have := (List.pairwise_append.mp hsorted).2.2 b hb a ha
    omega
  · exact hb

/-- What comes earlier in an update than the next call is done. -/
theorem earlier_not_mem {todo : List (Call (m + 1))} {a b : Call (m + 1)}
    (h : a :: todo <:+ updateCalls m) (hlt : stage b < stage a) : b ∉ a :: todo := by
  have hsorted := (stage_sorted (m := m)).sublist h.sublist
  intro hb
  rcases List.mem_cons.mp hb with rfl | hb
  · exact Nat.lt_irrefl _ hlt
  · have := (List.pairwise_cons.mp hsorted).1 b hb
    omega

theorem taker_zero : taker (0 : Fin (m + 1)) = .update 0 0 := rfl

theorem taker_succ (k : Fin m) : taker k.succ = .mergePendingList 0 k.succ :=
  if_neg (Fin.succ_ne_zero k)

theorem taker_mem (i : Fin (m + 1)) : taker i ∈ updateCalls m := by
  refine Fin.cases ?_ (fun k => ?_) i
  · exact update_mem 0
  · rw [taker_succ]
    exact merge_mem k

/-! ## What the account of a call has -/

section Account

variable {logs : Fin (m + 1) → List Tagged} {i j : Fin (m + 1)} {e : Tagged}

/-- A worker's entry is the newest of its own log. -/
theorem mem_recorded {new : List Tagged} :
    e ∈ Function.update logs i (new ++ logs i) j ↔ j = i ∧ e ∈ new ∨ e ∈ logs j := by
  by_cases hj : j = i
  · rw [hj, Function.update_self, List.mem_append, and_iff_right rfl]
  · rw [Function.update_of_ne hj, or_iff_right fun h => hj h.1]

/-- A merge moves a log behind that of cache 0. -/
theorem mem_merged {k : Fin m} :
    e ∈ Function.update (Function.update logs 0 (logs 0 ++ logs k.succ)) k.succ [] i ↔
      i ≠ k.succ ∧ (e ∈ logs i ∨ i = 0 ∧ e ∈ logs k.succ) := by
  by_cases hk : i = k.succ
  · rw [hk, Function.update_self]
    exact iff_of_false List.not_mem_nil fun h => h.1 rfl
  · rw [Function.update_of_ne hk, and_iff_right hk]
    by_cases hi : i = 0
    · rw [hi, Function.update_self, List.mem_append, and_iff_right rfl]
    · rw [Function.update_of_ne hi, or_iff_left fun h => hi h.1]

theorem mem_cleared : e ∈ Function.update logs i [] j ↔ j ≠ i ∧ e ∈ logs j := by
  by_cases hj : j = i
  · rw [hj, Function.update_self]
    exact iff_of_false List.not_mem_nil fun h => h.1 rfl
  · rw [Function.update_of_ne hj, and_iff_right hj]

/-- A replay applies the entries of the log of cache 0. -/
theorem mem_replayed {applied : Fin (m + 1) → Finset Nat} {t : Nat} :
    t ∈ Function.update applied j (applied j ∪ ((logs 0).map Prod.fst).toFinset) i ↔
      t ∈ applied i ∨ i = j ∧ ∃ e ∈ logs 0, e.1 = t := by
  by_cases hi : i = j
  · rw [hi, Function.update_self, Finset.mem_union, List.mem_toFinset, List.mem_map,
      and_iff_right rfl]
  · rw [Function.update_of_ne hi, or_iff_left fun h => hi h.1]

end Account

/-! ## The account agrees with the caches -/

/-- The caches are sound, the account's logs are theirs, tags are fresh, and `todo` is what is left
of an update. -/
structure Accounted (s : Interleaving m) : Prop where
  filled : s.caches.Filled fun _ => True
  inStep : ∀ i, (s.logs i).map Prod.snd = (s.caches i).pendingUpdateList
  tags_lt : ∀ i, ∀ e ∈ s.logs i, e.1 < s.nextTag
  applied_lt : ∀ i, ∀ t ∈ s.applied i, t < s.nextTag
  suffix : s.todo <:+ updateCalls m

theorem added_append (new before : List (Str × Str)) : added before (new ++ before) = new := by
  unfold added
  rw [List.length_append, Nat.add_sub_cancel]
  exact List.take_left' rfl

/-- A worker's call succeeds on its own cache, and logs an entry unless it is a `get` that misses. -/
theorem step_worker {s : Interleaving m} (h : s.Accounted) {a : Action m} (ha : a ≠ .timer) :
    ∃ i c' new, step s a = .ok { s with
        caches := Function.update s.caches i c'
        logs := Function.update s.logs i (new.map (s.nextTag, ·) ++ s.logs i)
        nextTag := s.nextTag + 1 } ∧
      c'.Filled (fun _ => True) ∧ c'.pendingUpdateList = new ++ (s.caches i).pendingUpdateList ∧
      (Safe s a ↔ new = [] ∨ ¬ s.Window i) := by
  cases a with
  | timer => exact absurd rfl ha
  | get i key =>
    obtain ⟨c', val, new, hget, hc', htouched, -, hnew, -⟩ := LRUCache.get_filled (h.filled i) key
    refine ⟨i, c', new, ?_, hc', htouched.pending_eq, by rw [Safe, hnew]⟩
    simp only [step, call, Caches.get, hget, Except.ok_bind, record, Function.update_self,
      htouched.pending_eq, added_append]
  | put i key val =>
    have hput : (fun _ : Str × Str => True) (key, val) := trivial
    obtain ⟨c', hput, hc', htouched⟩ := LRUCache.put_filled (h.filled i) hput false
    have hpending : c'.pendingUpdateList = [(key, val)] ++ (s.caches i).pendingUpdateList :=
      htouched.pending_eq
    refine ⟨i, c', [(key, val)], ?_, hc', hpending, ?_⟩
    · simp only [step, call, Caches.put, hput, Except.ok_bind, record, Function.update_self,
        hpending, added_append]
    · simp only [Safe, List.cons_ne_nil, false_or]

/-- The calls left after the next one are still the end of an update. -/
theorem Accounted.suffix_tail {s : Interleaving m} (h : s.Accounted) {op : Call (m + 1)}
    {todo : List (Call (m + 1))} (htodo : s.todo = op :: todo) : todo <:+ updateCalls m :=
  (List.suffix_cons op todo).trans (htodo ▸ h.suffix)

theorem account_merge (s : Interleaving m) (k : Fin m) :
    s.account (.mergePendingList 0 k.succ) =
      { s with
        logs := Function.update (Function.update s.logs 0 (s.logs 0 ++ s.logs k.succ)) k.succ [] } := by
  simp only [account, (Fin.succ_ne_zero k).symm, ↓reduceIte]

theorem Accounted.merge {s : Interleaving m} (h : s.Accounted) {k : Fin m}
    {todo : List (Call (m + 1))} (htodo : s.todo = .mergePendingList 0 k.succ :: todo) :
    Accounted { s.account (.mergePendingList 0 k.succ) with
      caches := s.caches.mergePendingList 0 k.succ, todo := todo } := by
  have hne : (0 : Fin (m + 1)) ≠ k.succ := (Fin.succ_ne_zero k).symm
  have hputs : (Call.mergePendingList 0 k.succ).Puts fun _ => True := trivial
  obtain ⟨caches, hcall, hfilled⟩ := filled_call h.filled hputs
  obtain rfl := Except.ok.inj hcall
  rw [account_merge]
  refine ⟨hfilled, fun i => ?_, fun i e he => ?_, h.applied_lt, h.suffix_tail htodo⟩
  · -- the merged caches have the merged logs, cache by cache
    show (Function.update (Function.update s.logs 0 (s.logs 0 ++ s.logs k.succ)) k.succ [] i).map
      Prod.snd = (s.caches.mergePendingList 0 k.succ i).pendingUpdateList
    rw [s.caches.mergePendingList_of_ne hne]
    by_cases hk : i = k.succ
    · rw [hk, Function.update_self, Function.update_self]
      rfl
    · rw [Function.update_of_ne hk, Function.update_of_ne hk]
      by_cases hi : i = 0
      · rw [hi, Function.update_self, Function.update_self, List.map_append, h.inStep, h.inStep]
      · rw [Function.update_of_ne hi, Function.update_of_ne hi, h.inStep]
  · obtain ⟨-, he | ⟨-, he⟩⟩ := mem_merged.mp he
    · exact h.tags_lt i e he
    · exact h.tags_lt k.succ e he

theorem Accounted.update {s : Interleaving m} (h : s.Accounted) {j : Fin (m + 1)}
    {todo : List (Call (m + 1))} (htodo : s.todo = .update j 0 :: todo) :
    ∃ caches, call s.caches (.update j 0) = .ok caches ∧
      Accounted { s.account (.update j 0) with caches := caches, todo := todo } := by
  obtain ⟨c', hupdate, hc', htouched⟩ := LRUCache.update_filled (h.filled j) (h.filled 0).logged
  refine ⟨Function.update s.caches j c', ?_, h.filled.set j hc', fun i => ?_, h.tags_lt,
    fun i t ht => ?_, h.suffix_tail htodo⟩
  · simp only [call, Caches.update, hupdate, Except.ok_bind]
  · show (s.logs i).map Prod.snd = (Function.update s.caches j c' i).pendingUpdateList
    by_cases hi : i = j
    · rw [hi, Function.update_self, htouched.pending_eq, h.inStep]
      rfl
    · rw [Function.update_of_ne hi, h.inStep]
  · rcases mem_replayed.mp ht with ht | ⟨-, e, he, rfl⟩
    · exact h.applied_lt i t ht
    · exact h.tags_lt 0 e he

theorem Accounted.clear {s : Interleaving m} (h : s.Accounted) {i : Fin (m + 1)}
    {todo : List (Call (m + 1))} (htodo : s.todo = .clearPendingList i :: todo) :
    Accounted { s.account (.clearPendingList i) with
      caches := s.caches.clearPendingList i, todo := todo } := by
  refine ⟨h.filled.set i (h.filled i).cleared, fun j => ?_, fun j e he => ?_, h.applied_lt,
    h.suffix_tail htodo⟩
  · show (Function.update s.logs i [] j).map Prod.snd =
      (Function.update s.caches i (s.caches i).clearPendingList j).pendingUpdateList
    by_cases hj : j = i
    · rw [hj, Function.update_self, Function.update_self]
      rfl
    · rw [Function.update_of_ne hj, Function.update_of_ne hj, h.inStep]
  · exact h.tags_lt j e (mem_cleared.mp he).2

theorem Accounted.worker {s : Interleaving m} (h : s.Accounted) {i : Fin (m + 1)} {c' : LRUCache}
    {new : List (Str × Str)} (hc' : c'.Filled fun _ => True)
    (hpending : c'.pendingUpdateList = new ++ (s.caches i).pendingUpdateList) :
    Accounted { s with
      caches := Function.update s.caches i c'
      logs := Function.update s.logs i (new.map (s.nextTag, ·) ++ s.logs i)
      nextTag := s.nextTag + 1 } := by
  refine ⟨h.filled.set i hc', fun j => ?_, fun j e he => ?_, fun j t ht => ?_, h.suffix⟩
  · show (Function.update s.logs i _ j).map Prod.snd =
      (Function.update s.caches i c' j).pendingUpdateList
    by_cases hj : j = i
    · rw [hj, Function.update_self, Function.update_self, hpending, List.map_append, h.inStep,
        List.map_map, Function.comp_def, List.map_id']
    · rw [Function.update_of_ne hj, Function.update_of_ne hj, h.inStep]
  · rcases mem_recorded.mp he with ⟨-, he⟩ | he
    · obtain ⟨p, -, rfl⟩ := List.mem_map.mp he
      exact Nat.lt_succ_self _
    · exact Nat.lt_succ_of_lt (h.tags_lt j e he)
  · exact Nat.lt_succ_of_lt (h.applied_lt j t ht)

/-- **What one step does to the account.** A worker logs at most one entry, with a fresh tag; the
timer fires; or the timer takes the next call of its update. Every step succeeds. -/
theorem step_cases {s : Interleaving m} (h : s.Accounted) (a : Action m) :
    ∃ s', step s a = .ok s' ∧ s'.Accounted ∧
      ((∃ i new caches, s' = { s with
          caches := caches
          logs := Function.update s.logs i (new.map (s.nextTag, ·) ++ s.logs i)
          nextTag := s.nextTag + 1 } ∧ (Safe s a ↔ new = [] ∨ ¬ s.Window i)) ∨
        (Safe s a ∧ s.todo = [] ∧ s' = { s with todo := updateCalls m }) ∨
        (Safe s a ∧ ∃ op todo caches, s.todo = op :: todo ∧
          s' = { s.account op with caches := caches, todo := todo })) := by
  by_cases ha : a = .timer
  · subst ha
    have hsafe : Safe s .timer := trivial
    cases htodo : s.todo with
    | nil =>
      refine ⟨{ s with todo := updateCalls m }, ?_, ⟨h.filled, h.inStep, h.tags_lt, h.applied_lt,
        List.suffix_refl _⟩, .inr (.inl ⟨hsafe, rfl, rfl⟩)⟩
      simp only [step, htodo]
    | cons op todo =>
      have hmem : op ∈ updateCalls m := (htodo ▸ h.suffix).subset List.mem_cons_self
      rcases updateCalls_cases hmem with ⟨k, rfl⟩ | ⟨j, rfl⟩ | ⟨i, rfl⟩
      · refine ⟨_, ?_, h.merge htodo, .inr (.inr ⟨hsafe, _, _, _, rfl, rfl⟩)⟩
        simp only [step, htodo, call, Except.ok_bind]
      · obtain ⟨caches, hcall, hs'⟩ := h.update htodo
        refine ⟨_, ?_, hs', .inr (.inr ⟨hsafe, _, _, _, rfl, rfl⟩)⟩
        simp only [step, htodo, hcall, Except.ok_bind]
      · refine ⟨_, ?_, h.clear htodo, .inr (.inr ⟨hsafe, _, _, _, rfl, rfl⟩)⟩
        simp only [step, htodo, call, Except.ok_bind]
  · obtain ⟨i, c', new, hstep, hc', hpending, hsafe⟩ := step_worker h ha
    exact ⟨_, hstep, h.worker hc' hpending, .inl ⟨i, new, _, rfl, hsafe⟩⟩

/-! ## Nothing is lost outside the windows -/

/-- So far nothing was lost. What was merged left an empty log behind, and what cache 0 has in its
log is applied by the caches that have replayed it. -/
structure Kept (s : Interleaving m) : Prop extends Accounted s where
  taken : ∀ k : Fin m, s.Window k.succ → s.logs k.succ = []
  replayed : ∀ j, .update j 0 ∉ s.todo → .clearPendingList 0 ∈ s.todo →
    ∀ e ∈ s.logs 0, e.1 ∈ s.applied j
  lost_eq : s.lost = []

/-- While the first replay is to come, all replays are. -/
theorem Accounted.update_pending {s : Interleaving m} (h : s.Accounted)
    (hfirst : .update 0 0 ∈ s.todo) (j : Fin (m + 1)) : .update j 0 ∈ s.todo := by
  by_cases hj : j = 0
  · rw [hj]
    exact hfirst
  · refine later_mem h.suffix hfirst (update_mem j) ?_
    simp only [stage, ↓reduceIte, if_neg hj]
    omega

/-- A worker that logs nothing in a window loses nothing. -/
theorem Kept.worker {s : Interleaving m} (h : s.Kept) {i : Fin (m + 1)} {new : List (Str × Str)}
    {caches : Caches (m + 1)} (hsafe : new = [] ∨ ¬ s.Window i)
    (hs' : Accounted { s with
      caches := caches
      logs := Function.update s.logs i (new.map (s.nextTag, ·) ++ s.logs i)
      nextTag := s.nextTag + 1 }) :
    Kept { s with
      caches := caches
      logs := Function.update s.logs i (new.map (s.nextTag, ·) ++ s.logs i)
      nextTag := s.nextTag + 1 } := by
  rcases hsafe with rfl | hsafe
  · have hlogs : Function.update s.logs i (([] : List (Str × Str)).map (s.nextTag, ·) ++ s.logs i) =
        s.logs := Function.update_eq_self i s.logs
    rw [hlogs] at hs' ⊢
    exact ⟨hs', h.taken, h.replayed, h.lost_eq⟩
  · refine ⟨hs', fun k hwindow => ?_, fun j hdone hclear e he => ?_, h.lost_eq⟩
    · change s.Window k.succ at hwindow
      show Function.update s.logs i _ k.succ = []
      by_cases hk : k.succ = i
      · exact absurd (hk ▸ hwindow) hsafe
      · rw [Function.update_of_ne hk, h.taken k hwindow]
    · change Call.clearPendingList 0 ∈ s.todo at hclear
      rcases mem_recorded.mp he with ⟨rfl, -⟩ | he
      · -- outside the window of cache 0 all replays are still to come
        have hfirst : Call.update 0 0 ∈ s.todo := by
          by_contra hnot
          exact hsafe ⟨hnot, hclear⟩
        exact absurd (h.toAccounted.update_pending hfirst j) hdone
      · exact h.replayed j hdone hclear e he

theorem Kept.fire {s : Interleaving m} (h : s.Kept)
    (hs' : Accounted { s with todo := updateCalls m }) : Kept { s with todo := updateCalls m } := by
  refine ⟨hs', fun k hwindow => ?_, fun j hdone => ?_, h.lost_eq⟩
  · exact absurd (taker_mem k.succ) hwindow.1
  · exact absurd (update_mem j) hdone

/-- A call that is not the next one was done before if it is done after it. -/
theorem not_mem_todo {s : Interleaving m} {op a : Call (m + 1)} {todo : List (Call (m + 1))}
    (htodo : s.todo = op :: todo) (hne : a ≠ op) (hnot : a ∉ todo) : a ∉ s.todo := by
  rw [htodo]
  exact fun hmem => (List.mem_cons.mp hmem).elim hne hnot

theorem mem_todo {s : Interleaving m} {op a : Call (m + 1)} {todo : List (Call (m + 1))}
    (htodo : s.todo = op :: todo) (hmem : a ∈ todo) : a ∈ s.todo :=
  htodo ▸ List.mem_cons_of_mem _ hmem

theorem Kept.merge {s : Interleaving m} (h : s.Kept) {k : Fin m} {todo : List (Call (m + 1))}
    {caches : Caches (m + 1)} (htodo : s.todo = .mergePendingList 0 k.succ :: todo)
    (hs' : Accounted { s.account (.mergePendingList 0 k.succ) with caches := caches, todo := todo }) :
    Kept { s.account (.mergePendingList 0 k.succ) with caches := caches, todo := todo } := by
  rw [account_merge] at hs' ⊢
  refine ⟨hs', fun k' hwindow => ?_, fun j hdone => ?_, h.lost_eq⟩
  · refine List.eq_nil_iff_forall_not_mem.mpr fun e he => ?_
    obtain ⟨hne, he | ⟨hzero, -⟩⟩ := mem_merged.mp he
    · -- the log of another cache was taken up before this call
      have hdone : taker k'.succ ∉ s.todo := by
        refine not_mem_todo htodo ?_ hwindow.1
        rw [taker_succ]
        exact fun heq => hne (Call.mergePendingList.inj heq).2
      rw [h.taken k' ⟨hdone, mem_todo htodo hwindow.2⟩] at he
      exact List.not_mem_nil he
    · exact Fin.succ_ne_zero k' hzero
  · -- no cache has replayed anything yet
    have hlater : Call.update j 0 ∈ Call.mergePendingList 0 k.succ :: todo := by
      refine later_mem (htodo ▸ h.suffix) List.mem_cons_self (update_mem j) ?_
      simp only [stage]
      split <;> omega
    rcases List.mem_cons.mp hlater with heq | hlater
    · cases heq
    · exact absurd hlater hdone

theorem Kept.update {s : Interleaving m} (h : s.Kept) {j : Fin (m + 1)}
    {todo : List (Call (m + 1))} {caches : Caches (m + 1)} (htodo : s.todo = .update j 0 :: todo)
    (hs' : Accounted { s.account (.update j 0) with caches := caches, todo := todo }) :
    Kept { s.account (.update j 0) with caches := caches, todo := todo } := by
  refine ⟨hs', fun k hwindow => ?_, fun j' hdone hclear e he => ?_, h.lost_eq⟩
  · refine h.taken k ⟨not_mem_todo htodo ?_ hwindow.1, mem_todo htodo hwindow.2⟩
    rw [taker_succ]
    exact fun heq => nomatch heq
  · refine mem_replayed.mpr ?_
    by_cases hj : j' = j
    · exact .inr ⟨hj, e, he, rfl⟩
    · refine .inl (h.replayed j' (not_mem_todo htodo ?_ hdone) (mem_todo htodo hclear) e he)
      exact fun heq => hj (Call.update.inj heq).1

/-- A clear loses nothing: what it drops was applied by every cache. -/
theorem Kept.clear {s : Interleaving m} (h : s.Kept) {i : Fin (m + 1)}
    {todo : List (Call (m + 1))} {caches : Caches (m + 1)}
    (htodo : s.todo = .clearPendingList i :: todo)
    (hs' : Accounted { s.account (.clearPendingList i) with caches := caches, todo := todo }) :
    Kept { s.account (.clearPendingList i) with caches := caches, todo := todo } := by
  have hsuffix : .clearPendingList i :: todo <:+ updateCalls m := htodo ▸ h.suffix
  -- every merge and every replay of this update is done
  have hreplays : ∀ j, Call.update j 0 ∉ s.todo := fun j => by
    rw [htodo]
    refine earlier_not_mem hsuffix ?_
    simp only [stage]
    split <;> omega
  have hmerges : ∀ k : Fin m, taker k.succ ∉ s.todo := fun k => by
    rw [taker_succ, htodo]
    refine earlier_not_mem hsuffix ?_
    simp only [stage]
    omega
  have hhere : Call.clearPendingList i ∈ s.todo := htodo ▸ List.mem_cons_self
  have happlied : ∀ e ∈ s.logs i, ∀ j, e.1 ∈ s.applied j := by
    revert hhere
    refine Fin.cases (fun hhere e he j => ?_) (fun k hhere e he => ?_) i
    · exact h.replayed j (hreplays j) hhere e he
    · rw [h.taken k ⟨hmerges k, hhere⟩] at he
      exact absurd he List.not_mem_nil
  refine ⟨hs', fun k hwindow => ?_, fun j _ hclear e he => ?_, ?_⟩
  · refine List.eq_nil_iff_forall_not_mem.mpr fun e he => ?_
    have hlog := (mem_cleared.mp he).2
    rw [h.taken k ⟨hmerges k, mem_todo htodo hwindow.2⟩] at hlog
    exact List.not_mem_nil hlog
  · exact h.replayed j (hreplays j) (mem_todo htodo hclear) e (mem_cleared.mp he).2
  · show s.lost ++ (s.logs i).filter (fun e => ∃ j, e.1 ∉ s.applied j) = []
    rw [h.lost_eq, List.nil_append, List.filter_eq_nil_iff]
    intro e he hnot
    obtain ⟨j, hj⟩ := of_decide_eq_true hnot
    exact hj (happlied e he j)

/-- The timer's calls lose nothing. -/
theorem Kept.timer {s : Interleaving m} (h : s.Kept) {op : Call (m + 1)}
    {todo : List (Call (m + 1))} {caches : Caches (m + 1)} (htodo : s.todo = op :: todo)
    (hs' : Accounted { s.account op with caches := caches, todo := todo }) :
    Kept { s.account op with caches := caches, todo := todo } := by
  have hmem : op ∈ updateCalls m := (htodo ▸ h.suffix).subset List.mem_cons_self
  rcases updateCalls_cases hmem with ⟨k, rfl⟩ | ⟨j, rfl⟩ | ⟨i, rfl⟩
  · exact h.merge htodo hs'
  · exact h.update htodo hs'
  · exact h.clear htodo hs'

/-- **A step outside the windows keeps everything.** -/
theorem kept_step {s : Interleaving m} (h : s.Kept) {a : Action m} (hsafe : Safe s a) :
    ∃ s', step s a = .ok s' ∧ s'.Kept := by
  obtain ⟨s', hstep, hs', hcase⟩ := step_cases h.toAccounted a
  refine ⟨s', hstep, ?_⟩
  rcases hcase with ⟨i, new, caches, rfl, hiff⟩ | ⟨-, -, rfl⟩ | ⟨-, op, todo, caches, htodo, rfl⟩
  · exact h.worker (hiff.mp hsafe) hs'
  · exact h.fire hs'
  · exact h.timer htodo hs'

/-! ## What is logged in a window is lost -/

/-- Something was lost, or an entry stands in a window: in the log of cache `i` and no other, and not
applied by cache 0. -/
def Doomed (s : Interleaving m) : Prop :=
  s.lost ≠ [] ∨ ∃ i, s.Window i ∧ ∃ e ∈ s.logs i, e.1 ∉ s.applied mainCache ∧
    ∀ j, j ≠ i → ∀ e' ∈ s.logs j, e'.1 ≠ e.1

/-- An entry that is logged in a window is doomed: its tag is fresh. -/
theorem doomed_record {s : Interleaving m} (h : s.Accounted) {i : Fin (m + 1)}
    {new : List (Str × Str)} {caches : Caches (m + 1)} (hnew : new ≠ []) (hwindow : s.Window i) :
    Doomed { s with
      caches := caches
      logs := Function.update s.logs i (new.map (s.nextTag, ·) ++ s.logs i)
      nextTag := s.nextTag + 1 } := by
  obtain ⟨p, hp⟩ := List.exists_mem_of_ne_nil new hnew
  refine .inr ⟨i, hwindow, (s.nextTag, p), ?_, fun hmem => ?_, fun j hj e' he' heq => ?_⟩
  · exact mem_recorded.mpr (.inl ⟨rfl, List.mem_map_of_mem hp⟩)
  · exact Nat.lt_irrefl _ (h.applied_lt 0 _ hmem)
  · rcases mem_recorded.mp he' with ⟨hji, -⟩ | he'
    · exact hj hji
    · exact Nat.lt_irrefl _ (heq ▸ h.tags_lt j e' he')

/-- What is doomed stays doomed whatever the workers log: their tags are fresh. -/
theorem Doomed.worker {s : Interleaving m} (hs : s.Accounted) (h : s.Doomed) {i : Fin (m + 1)}
    {new : List (Str × Str)} {caches : Caches (m + 1)} :
    Doomed { s with
      caches := caches
      logs := Function.update s.logs i (new.map (s.nextTag, ·) ++ s.logs i)
      nextTag := s.nextTag + 1 } := by
  rcases h with h | ⟨w, hwindow, e, he, happlied, hothers⟩
  · exact .inl h
  · refine .inr ⟨w, hwindow, e, mem_recorded.mpr (.inr he), happlied, fun j hj e' he' => ?_⟩
    rcases mem_recorded.mp he' with ⟨-, he'⟩ | he'
    · obtain ⟨p, -, rfl⟩ := List.mem_map.mp he'
      exact fun heq => Nat.lt_irrefl _ (heq ▸ hs.tags_lt w e he)
    · exact hothers j hj e' he'

/-- What is doomed stays doomed in the timer's steps: its own log is not taken up any more, and the
clear finds it unapplied. -/
theorem Doomed.timer {s : Interleaving m} (hs : s.Accounted) (h : s.Doomed) {op : Call (m + 1)}
    {todo : List (Call (m + 1))} {caches : Caches (m + 1)} (htodo : s.todo = op :: todo) :
    Doomed { s.account op with caches := caches, todo := todo } := by
  have hmem : op ∈ updateCalls m := (htodo ▸ hs.suffix).subset List.mem_cons_self
  rcases h with h | ⟨w, ⟨hdone, hclear⟩, e, he, happlied, hothers⟩
  · refine .inl ?_
    rcases updateCalls_cases hmem with ⟨k, rfl⟩ | ⟨j, rfl⟩ | ⟨i, rfl⟩
    · rw [account_merge]
      exact h
    · exact h
    · exact fun hnil => h (List.append_eq_nil_iff.mp hnil).1
  · rw [htodo] at hdone hclear
    have hop : taker w ≠ op := fun heq => hdone (heq ▸ List.mem_cons_self)
    have hrest : taker w ∉ todo := fun hmem => hdone (List.mem_cons_of_mem _ hmem)
    have hwindow : Call.clearPendingList w ≠ op →
        Window { s.account op with caches := caches, todo := todo } w :=
      fun hne => ⟨hrest, (List.mem_cons.mp hclear).resolve_left hne⟩
    rcases updateCalls_cases hmem with ⟨k, rfl⟩ | ⟨j, rfl⟩ | ⟨i, rfl⟩
    · have hwk : w ≠ k.succ := fun heq => hop (heq ▸ taker_succ k)
      have hstill := hwindow fun heq => nomatch heq
      rw [account_merge] at hstill ⊢
      refine .inr ⟨w, hstill, e, mem_merged.mpr ⟨hwk, .inl he⟩, happlied, fun i hi e' he' => ?_⟩
      obtain ⟨-, he' | ⟨-, he'⟩⟩ := mem_merged.mp he'
      · exact hothers i hi e' he'
      · exact hothers k.succ hwk.symm e' he'
    · have hstill := hwindow fun heq => nomatch heq
      refine .inr ⟨w, hstill, e, he, fun hmem => ?_, hothers⟩
      rcases mem_replayed.mp hmem with hmem | ⟨hj, e', he', heq⟩
      · exact happlied hmem
      · -- cache 0 replays its own log, and the entry is in another one
        have hw : mainCache ≠ w := by
          rintro rfl
          exact hop (hj ▸ taker_zero)
        exact hothers mainCache hw e' he' heq
    · by_cases hi : w = i
      · -- here it is dropped
        subst hi
        refine .inl fun hnil => ?_
        have hlost : e ∈ (s.logs w).filter fun e => ∃ j, e.1 ∉ s.applied j :=
          List.mem_filter.mpr ⟨he, decide_eq_true ⟨0, happlied⟩⟩
        rw [(List.append_eq_nil_iff.mp hnil).2] at hlost
        exact List.not_mem_nil hlost
      · have hstill := hwindow fun heq => hi (Call.clearPendingList.inj heq)
        refine .inr ⟨w, hstill, e, mem_cleared.mpr ⟨hi, he⟩, happlied, fun j hj e' he' => ?_⟩
        exact hothers j hj e' (mem_cleared.mp he').2

theorem doomed_step {s s' : Interleaving m} {a : Action m} (h : s.Accounted) (hdoomed : s.Doomed)
    (hstep : step s a = .ok s') : s'.Doomed := by
  obtain ⟨s₁, hstep₁, -, hcase⟩ := step_cases h a
  obtain rfl := Except.ok.inj (hstep₁.symm.trans hstep)
  rcases hcase with ⟨i, new, caches, rfl, -⟩ | ⟨-, hidle, rfl⟩ | ⟨-, op, todo, caches, htodo, rfl⟩
  · exact hdoomed.worker h
  · rcases hdoomed with hlost | ⟨i, ⟨-, hclear⟩, -⟩
    · exact .inl hlost
    · rw [hidle] at hclear
      exact absurd hclear List.not_mem_nil
  · exact hdoomed.timer h htodo

/-- **A step in a window dooms an entry.** -/
theorem doomed_of_not_safe {s s' : Interleaving m} {a : Action m} (h : s.Accounted)
    (hnot : ¬ Safe s a) (hstep : step s a = .ok s') : s'.Doomed := by
  obtain ⟨s₁, hstep₁, -, hcase⟩ := step_cases h a
  obtain rfl := Except.ok.inj (hstep₁.symm.trans hstep)
  rcases hcase with ⟨i, new, caches, rfl, hiff⟩ | ⟨hsafe, -⟩ | ⟨hsafe, -⟩
  · rw [hiff, not_or, not_not] at hnot
    exact doomed_record h hnot.1 hnot.2
  · exact absurd hsafe hnot
  · exact absurd hsafe hnot

/-! ## Runs -/

theorem accounted_start {caches : Caches (m + 1)} (sound : ∀ i, (caches i).Sound)
    (fresh : ∀ i, (caches i).pendingUpdateList = []) : Accounted (start caches) where
  filled := fun i => ⟨sound i, fun _ _ => trivial, fun _ _ => trivial⟩
  inStep := fun i => (fresh i).symm
  tags_lt := fun _ _ he => absurd he List.not_mem_nil
  applied_lt := fun _ t ht => absurd ht (Finset.notMem_empty t)
  suffix := List.nil_suffix

theorem kept_start {caches : Caches (m + 1)} (sound : ∀ i, (caches i).Sound)
    (fresh : ∀ i, (caches i).pendingUpdateList = []) : Kept (start caches) where
  toAccounted := accounted_start sound fresh
  taken := fun _ _ => rfl
  replayed := fun _ _ _ _ he => absurd he List.not_mem_nil
  lost_eq := rfl

/-- **Updates under interleaving.** From sound caches with empty logs every interleaving of the
workers' calls with the timer's goes through, and the account's logs are the caches' logs. A run that
logs nothing in a window loses nothing; and a run that lost nothing when its last update is complete
logged nothing in a window. -/
theorem lost_iff {caches : Caches (m + 1)} (sound : ∀ i, (caches i).Sound)
    (fresh : ∀ i, (caches i).pendingUpdateList = []) (actions : List (Action m)) :
    ∃ s, Run.run step (start caches) actions = .ok s ∧
      (∀ i, (s.logs i).map Prod.snd = (s.caches i).pendingUpdateList) ∧
      (Run.Meets step Safe (start caches) actions → s.lost = []) ∧
      (s.todo = [] → s.lost = [] → Run.Meets step Safe (start caches) actions) := by
  have hstart := accounted_start sound fresh
  have keeps : ∀ (s : Interleaving m) a s', s.Accounted → step s a = .ok s' → s'.Accounted := by
    intro s a s' h hstep
    obtain ⟨s₁, hstep₁, hs₁, -⟩ := step_cases h a
    exact Except.ok.inj (hstep₁.symm.trans hstep) ▸ hs₁
  obtain ⟨s, hrun, hs⟩ := Run.run_always Accounted
    (fun s a h => by
      obtain ⟨s', hstep, hs', -⟩ := step_cases h a
      exact ⟨s', hstep, hs'⟩)
    hstart actions
  refine ⟨s, hrun, hs.inStep, fun hmeets => ?_, fun hidle hlost => ?_⟩
  · obtain ⟨s₁, hrun₁, hkept⟩ := Run.run_meets Kept (fun _ _ h hsafe => kept_step h hsafe)
      (kept_start sound fresh) hmeets
    exact Except.ok.inj (hrun₁.symm.trans hrun) ▸ hkept.lost_eq
  · refine Run.meets_of_run Accounted Doomed keeps
      (fun _ _ _ h hnot hstep => doomed_of_not_safe h hnot hstep)
      (fun _ _ _ h hdoomed hstep => doomed_step h hdoomed hstep) hstart hrun ?_
    rintro (hne | ⟨i, ⟨-, hclear⟩, -⟩)
    · exact hne hlost
    · rw [hidle] at hclear
      exact List.not_mem_nil hclear

/-- Two workers that load a file, and a put before the first update. -/
theorem lost_iff_two :
    let caches : Caches 2 := (initCache 1 (lit "k v\n")).caches
    let actions : List (Action 1) := [.put 1 (lit "k") (lit "w"), .timer, .timer, .get 0 (lit "k")]
    ((∀ i, (caches i).Sound) ∧ ∀ i, (caches i).pendingUpdateList = []) ∧
    ∃ s, Run.run step (start caches) actions = .ok s ∧
      (∀ i, (s.logs i).map Prod.snd = (s.caches i).pendingUpdateList) ∧
      (Run.Meets step Safe (start caches) actions → s.lost = []) ∧
      (s.todo = [] → s.lost = [] → Run.Meets step Safe (start caches) actions) := by
  intro caches actions
  have sound : ∀ i, (caches i).Sound := fun i => (initCache_sound 1 _ i).1
  have fresh : ∀ i, (caches i).pendingUpdateList = [] := fun i => (initCache_sound 1 _ i).2
  exact ⟨⟨sound, fresh⟩, lost_iff sound fresh actions⟩

end Interleaving

/-- Two workers. Worker 1 puts an entry when its log was merged already; the clear drops it, and cache
0 never gets it. -/
theorem lost_entry :
    ∃ s, Run.run Interleaving.step (Interleaving.start (initCache 1 []).caches)
      [.timer, .timer, .timer, .timer, .put 1 (lit "k") (lit "v"), .timer, .timer] = .ok s ∧
      s.lost = [(0, lit "k", lit "v")] ∧ (s.caches 0).keyExist (lit "k") = .atEnd :=
  ⟨_, rfl, rfl, rfl⟩

end LightSearch
