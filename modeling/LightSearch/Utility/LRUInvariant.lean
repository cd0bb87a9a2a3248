import LightSearch.Utility.LRUCache
import LightSearch.Lib.Recency
import LightSearch.Lib.Run
import Mathlib.Data.List.Nodup

/-!
# The representation invariant of the LRU cache

Two invariants, one inside the other. `Sound` is what keeps the methods from a fault: node addresses
are distinct, and an iterator of `_hashmap` refers to a live node with its key. `Valid` adds what the
class is for: the keys of `_cachedData` are distinct, `_hashmap` has all of them, and there are at
most `_capacity` nodes.

Each method is inverted once. `get_cases` and `put_cases` say that a call on a sound cache succeeds
and which of two states it leaves: `promoted`, where the key's node went to the front, or `inserted`,
where the key is new. Every later fact about the methods is a fact about these two states, and
`valid_call` carries the invariant over the calls of a family of caches, aliased or not.
-/

set_option autoImplicit false

namespace LightSearch

open Cxx

namespace LRUCache

/-- No call on the cache runs into a fault: iterators refer to live nodes with their key. -/
structure Sound (c : LRUCache) : Prop where
  capacity_pos : 1 ≤ c.capacity
  addrs_nodup : (c.cachedData.map Node.addr).Nodup
  addrs_lt : ∀ n ∈ c.cachedData, n.addr < c.nextAddr
  live : ∀ key it, c.hashmap key = some it →
    ∃ n ∈ c.cachedData, n.elem.1 = key ∧ it = .node n.addr

/-- **The representation invariant.** With `Sound.live`, `mapped` says that `_hashmap` has exactly
the keys of the list, each with the iterator to its node. -/
structure Valid (c : LRUCache) : Prop extends Sound c where
  keys_nodup : c.keys.Nodup
  mapped : ∀ n ∈ c.cachedData, c.hashmap n.elem.1 = some (.node n.addr)
  size_le : c.cachedData.length ≤ c.capacity

/-- What a client of the class relies on, for a cache created with `capacity`: the keys are distinct,
the map has exactly the keys of the list, its iterators refer to the live nodes of their keys, and
the list is not longer than the capacity. -/
structure Representation (c : LRUCache) (capacity : Nat) : Prop where
  keys_nodup : c.keys.Nodup
  addrs_nodup : (c.cachedData.map Node.addr).Nodup
  map_keys : ∀ key, (c.hashmap key).isSome = true ↔ key ∈ c.keys
  map_live : ∀ key it, c.hashmap key = some it →
    ∃ n ∈ c.cachedData, n.elem.1 = key ∧ it = .node n.addr
  size_le : c.cachedData.length ≤ capacity

theorem Valid.representation {c : LRUCache} (h : c.Valid) : c.Representation c.capacity where
  keys_nodup := h.keys_nodup
  addrs_nodup := h.addrs_nodup
  map_keys := fun key => by
    refine ⟨fun hsome => ?_, fun hmem => ?_⟩
    · obtain ⟨it, hit⟩ := Option.isSome_iff_exists.mp hsome
      obtain ⟨n, hn, rfl, -⟩ := h.live key it hit
      exact List.mem_map_of_mem hn
    · obtain ⟨n, hn, rfl⟩ := List.mem_map.mp hmem
      rw [h.mapped n hn]
      rfl
  map_live := h.live
  size_le := h.size_le

theorem keys_eq (c : LRUCache) : c.keys = Recency.keys c.entries := by
  simp only [keys, Recency.keys, entries, List.map_map, Function.comp_def]

theorem valid_new {capacity : Nat} (h : 1 ≤ capacity) : (new capacity).Valid where
  capacity_pos := h
  addrs_nodup := List.nodup_nil
  addrs_lt := fun _ hn => absurd hn List.not_mem_nil
  live := fun _ _ hit => nomatch hit
  keys_nodup := List.nodup_nil
  mapped := fun _ hn => absurd hn List.not_mem_nil
  size_le := Nat.zero_le _

/-! ## The states a call leaves -/

/-- The node at an address is dropped, and an entry is put at the front. -/
def promoted (c : LRUCache) (addr : Nat) (e : Str × Str) : LRUCache :=
  (pushFront { c with cachedData := c.cachedData.filter fun n => n.addr ≠ addr } e).mapBegin e.1

/-- The last node is dropped, and its key with it. -/
def evicted (c : LRUCache) : LRUCache :=
  match c.cachedData.getLast? with
  | none => c
  | some n => { c.unmap n.elem.1 with cachedData := c.cachedData.dropLast }

/-- An entry is put at the front, and the last node goes when there are too many. -/
def inserted (c : LRUCache) (e : Str × Str) : LRUCache :=
  mapBegin (if c.capacity < c.cachedData.length + 1 then (c.pushFront e).evicted
    else c.pushFront e) e.1

@[simp] theorem promoted_capacity (c : LRUCache) (addr : Nat) (e : Str × Str) :
    (c.promoted addr e).capacity = c.capacity := rfl

@[simp] theorem promoted_pending (c : LRUCache) (addr : Nat) (e : Str × Str) :
    (c.promoted addr e).pendingUpdateList = c.pendingUpdateList := rfl

@[simp] theorem evicted_capacity (c : LRUCache) : c.evicted.capacity = c.capacity := by
  unfold evicted
  split <;> rfl

@[simp] theorem evicted_pending (c : LRUCache) :
    c.evicted.pendingUpdateList = c.pendingUpdateList := by
  unfold evicted
  split <;> rfl

@[simp] theorem inserted_capacity (c : LRUCache) (e : Str × Str) :
    (c.inserted e).capacity = c.capacity := by
  unfold inserted
  split
  · exact evicted_capacity _
  · rfl

@[simp] theorem inserted_pending (c : LRUCache) (e : Str × Str) :
    (c.inserted e).pendingUpdateList = c.pendingUpdateList := by
  unfold inserted
  split
  · exact evicted_pending _
  · rfl

/-- A full cache has a last node, and it is the one that goes. -/
theorem pushFront_evicted {c : LRUCache} {kept : List Node} {last : Node}
    (h : c.cachedData = kept ++ [last]) (e : Str × Str) :
    (c.pushFront e).evicted =
      { c.pushFront e with
        cachedData := { addr := c.nextAddr, elem := e } :: kept
        hashmap := Function.update c.hashmap last.elem.1 none } := by
  have hdata : (c.pushFront e).cachedData = ({ addr := c.nextAddr, elem := e } :: kept) ++ [last] :=
    congrArg (_ :: ·) h
  unfold evicted
  rw [hdata, List.getLast?_concat, List.dropLast_concat]
  rfl

/-! ## One inversion lemma for each method -/

theorem keyExist_node {c : LRUCache} (h : c.Sound) {key : Str} {addr : Nat}
    (hk : c.keyExist key = .node addr) :
    ∃ n ∈ c.cachedData, n.elem.1 = key ∧ n.addr = addr := by
  unfold keyExist at hk
  cases hm : c.hashmap key with
  | none => rw [hm] at hk; cases hk
  | some it =>
    rw [hm] at hk
    obtain ⟨n, hn, hkey, hit⟩ := h.live key it hm
    exact ⟨n, hn, hkey, ListIter.node.inj (hit.symm.trans hk)⟩

/-- Two nodes of the list with one address are one node. -/
theorem Sound.node_eq {c : LRUCache} (h : c.Sound) {m n : Node} (hm : m ∈ c.cachedData)
    (hn : n ∈ c.cachedData) (heq : m.addr = n.addr) : m = n :=
  List.inj_on_of_nodup_map h.addrs_nodup hm hn heq

theorem deref_node {c : LRUCache} (h : c.Sound) {n : Node} (hn : n ∈ c.cachedData) :
    c.deref (.node n.addr) = .ok n.elem := by
  show (match c.cachedData.find? (fun m => decide (m.addr = n.addr)) with
    | none => .error .danglingIterator
    | some m => .ok m.elem) = (.ok n.elem : Except Fault (Str × Str))
  cases hf : c.cachedData.find? (fun m => decide (m.addr = n.addr)) with
  | none => exact absurd (decide_eq_true rfl) (List.find?_eq_none.mp hf n hn)
  | some m =>
    have haddr : m.addr = n.addr := by simpa only [decide_eq_true_iff] using List.find?_some hf
    rw [h.node_eq (List.mem_of_find?_eq_some hf) hn haddr]

theorem erase_node {c : LRUCache} {n : Node} (hn : n ∈ c.cachedData) :
    c.erase (.node n.addr) =
      .ok { c with cachedData := c.cachedData.filter fun m => m.addr ≠ n.addr } :=
  if_pos (List.mem_map_of_mem hn)

/-- **What `get` does.** A key without a node is a miss and changes nothing; the node of another
goes to the front, and the entry is logged. -/
theorem get_cases {c : LRUCache} (h : c.Sound) (key : Str) :
    (c.keyExist key = .atEnd ∧ c.get key = .ok (c, [])) ∨
    ∃ n ∈ c.cachedData, n.elem.1 = key ∧ c.keyExist key = .node n.addr ∧
      c.get key = .ok ((c.promoted n.addr n.elem).log n.elem false, n.elem.2) := by
  cases hk : c.keyExist key with
  | atEnd => exact .inl ⟨rfl, by simp only [get, hk]⟩
  | node addr =>
    obtain ⟨n, hn, hkey, rfl⟩ := keyExist_node h hk
    refine .inr ⟨n, hn, hkey, rfl, ?_⟩
    simp only [get, hk, deref_node h hn, erase_node hn, Except.ok_bind]
    rfl

theorem replaceFront_node {c : LRUCache} (h : c.Sound) {n : Node} (hn : n ∈ c.cachedData)
    (key val : Str) :
    c.replaceFront n.addr key val =
      .ok (pushFront { c with cachedData := c.cachedData.filter fun m => m.addr ≠ n.addr }
        (key, val)) := by
  simp only [replaceFront, deref_node h hn, erase_node hn, Except.ok_bind]

theorem insertFront_eq (c : LRUCache) (key val : Str) :
    c.insertFront key val =
      .ok (if c.capacity < c.cachedData.length + 1 then (c.pushFront (key, val)).evicted
        else c.pushFront (key, val)) := by
  by_cases hfull : c.capacity < c.cachedData.length + 1
  · have hlast : (c.pushFront (key, val)).cachedData ≠ [] := List.cons_ne_nil _ _
    have hgt : (c.pushFront (key, val)).cachedData.length >
      (c.pushFront (key, val)).capacity := hfull
    simp only [insertFront, if_pos hfull, if_pos hgt, back, evicted,
      List.getLast?_eq_getLast_of_ne_nil hlast, Except.ok_bind]
    rfl
  · have hgt : ¬ (c.pushFront (key, val)).cachedData.length >
      (c.pushFront (key, val)).capacity := hfull
    simp only [insertFront, if_neg hfull, if_neg hgt]

/-- **What `put` does.** The node of a known key is replaced by one at the front; a new key is
inserted at the front. The entry is logged unless the put is part of an update. -/
theorem put_cases {c : LRUCache} (h : c.Sound) (key val : Str) (update : Bool) :
    (c.keyExist key = .atEnd ∧
      c.put key val update = .ok ((c.inserted (key, val)).log (key, val) update)) ∨
    ∃ n ∈ c.cachedData, n.elem.1 = key ∧ c.keyExist key = .node n.addr ∧
      c.put key val update = .ok ((c.promoted n.addr (key, val)).log (key, val) update) := by
  cases hk : c.keyExist key with
  | atEnd =>
    refine .inl ⟨rfl, ?_⟩
    simp only [put, hk, insertFront_eq, Except.ok_bind]
    rfl
  | node addr =>
    obtain ⟨n, hn, hkey, rfl⟩ := keyExist_node h hk
    refine .inr ⟨n, hn, hkey, rfl, ?_⟩
    simp only [put, hk, replaceFront_node h hn, Except.ok_bind]
    rfl

/-! ## Soundness is kept -/

theorem Sound.log {c : LRUCache} (h : c.Sound) (e : Str × Str) (update : Bool) :
    (c.log e update).Sound := by
  cases update <;> exact ⟨h.capacity_pos, h.addrs_nodup, h.addrs_lt, h.live⟩

theorem mapBegin_hashmap (c : LRUCache) (key key' : Str) :
    (c.mapBegin key).hashmap key' = if key' = key then some c.begin else c.hashmap key' :=
  Function.update_apply ..

/-- A fresh node in front of some of a sound cache's nodes, mapped from its key, is sound as long as
the other keys keep their iterators and their nodes. -/
theorem Sound.mapBegin {c d : LRUCache} (h : c.Sound) {data : List Node} {e : Str × Str}
    (capacity : d.capacity = c.capacity)
    (front : d.cachedData = { addr := c.nextAddr, elem := e } :: data)
    (next : d.nextAddr = c.nextAddr + 1) (kept : data.Sublist c.cachedData)
    (others : ∀ key it, key ≠ e.1 → d.hashmap key = some it →
      c.hashmap key = some it ∧ ∀ n ∈ c.cachedData, n.elem.1 = key → n ∈ data) :
    (d.mapBegin e.1).Sound where
  capacity_pos := capacity ▸ h.capacity_pos
  addrs_nodup := by
    show (d.cachedData.map Node.addr).Nodup
    rw [front]
    refine List.nodup_cons.mpr ⟨fun hmem => ?_, h.addrs_nodup.sublist (kept.map _)⟩
    obtain ⟨n, hn, heq⟩ := List.mem_map.mp hmem
    have hlt := h.addrs_lt n (kept.subset hn)
    rw [heq] at hlt
    exact Nat.lt_irrefl _ hlt
  addrs_lt := by
    show ∀ n ∈ d.cachedData, n.addr < d.nextAddr
    rw [front, next]
    intro n hn
    rcases List.mem_cons.mp hn with rfl | hn
    · exact Nat.lt_succ_self _
    · exact Nat.lt_succ_of_lt (h.addrs_lt n (kept.subset hn))
  live := by
    intro key it hit
    show ∃ n ∈ d.cachedData, _
    rw [mapBegin_hashmap] at hit
    by_cases hkey : key = e.1
    · rw [if_pos hkey, begin, front] at hit
      obtain rfl := Option.some.inj hit
      exact ⟨_, front ▸ List.mem_cons_self, hkey.symm, rfl⟩
    · rw [if_neg hkey] at hit
      obtain ⟨hold, hdata⟩ := others key it hkey hit
      obtain ⟨n, hn, hnkey, rfl⟩ := h.live key it hold
      exact ⟨n, front ▸ List.mem_cons_of_mem _ (hdata n hn hnkey), hnkey, rfl⟩

theorem Sound.promoted {c : LRUCache} (h : c.Sound) {n : Node} (hn : n ∈ c.cachedData)
    {e : Str × Str} (he : n.elem.1 = e.1) : (c.promoted n.addr e).Sound := by
  refine h.mapBegin rfl rfl rfl List.filter_sublist fun key it hkey hit => ⟨hit, fun m hm hmkey => ?_⟩
  have hne : m.addr ≠ n.addr := fun heq => hkey (by rw [← hmkey, h.node_eq hm hn heq, he])
  exact List.mem_filter.mpr ⟨hm, decide_eq_true hne⟩

/-- A cache that is too full has a last node. -/
theorem Sound.split_last {c : LRUCache} (h : c.Sound)
    (hfull : c.capacity < c.cachedData.length + 1) :
    ∃ kept last, c.cachedData = kept ++ [last] := by
  have hne : c.cachedData ≠ [] := fun hnil => by
    have := h.capacity_pos
    rw [hnil, List.length_nil] at hfull
    omega
  exact ⟨_, _, (List.dropLast_append_getLast hne).symm⟩

theorem Sound.inserted {c : LRUCache} (h : c.Sound) (e : Str × Str) : (c.inserted e).Sound := by
  unfold LRUCache.inserted
  by_cases hfull : c.capacity < c.cachedData.length + 1
  · -- the last node goes, and its key is unmapped: every other key keeps its node
    obtain ⟨kept, last, hsplit⟩ := h.split_last hfull
    rw [if_pos hfull, pushFront_evicted hsplit]
    refine h.mapBegin rfl rfl rfl (hsplit ▸ List.sublist_append_left _ _) fun key it _ hit => ?_
    change Function.update c.hashmap last.elem.1 none key = some it at hit
    have hlast : key ≠ last.elem.1 := fun heq => by
      rw [heq, Function.update_self] at hit
      cases hit
    rw [Function.update_of_ne hlast] at hit
    refine ⟨hit, fun m hm hmkey => ?_⟩
    rw [hsplit] at hm
    rcases List.mem_append.mp hm with hm | hm
    · exact hm
    · exact absurd (List.mem_singleton.mp hm ▸ hmkey) (Ne.symm hlast)
  · rw [if_neg hfull]
    exact h.mapBegin rfl rfl rfl (List.Sublist.refl _) fun _ _ _ hit => ⟨hit, fun _ hm _ => hm⟩

/-! ## Validity is kept, and the entries are a bounded recency list -/

theorem Valid.log {c : LRUCache} (h : c.Valid) (e : Str × Str) (update : Bool) :
    (c.log e update).Valid := by
  cases update <;>
    exact { toSound := h.toSound.log e _, keys_nodup := h.keys_nodup, mapped := h.mapped,
            size_le := h.size_le }

theorem log_entries (c : LRUCache) (e : Str × Str) (update : Bool) :
    (c.log e update).entries = c.entries := by
  cases update <;> rfl

theorem log_capacity (c : LRUCache) (e : Str × Str) (update : Bool) :
    (c.log e update).capacity = c.capacity := by
  cases update <;> rfl

theorem log_pending (c : LRUCache) (e : Str × Str) (update : Bool) :
    (c.log e update).pendingUpdateList =
      if update then c.pendingUpdateList else e :: c.pendingUpdateList := by
  cases update <;> rfl

/-- Two nodes of a valid list with one key are one node. -/
theorem Valid.node_eq {c : LRUCache} (h : c.Valid) {m n : Node} (hm : m ∈ c.cachedData)
    (hn : n ∈ c.cachedData) (heq : m.elem.1 = n.elem.1) : m = n :=
  List.inj_on_of_nodup_map h.keys_nodup hm hn heq

theorem Valid.not_mem_keys {c : LRUCache} (h : c.Valid) {key : Str}
    (hmiss : c.keyExist key = .atEnd) : key ∉ c.keys := by
  intro hmem
  obtain ⟨n, hn, rfl⟩ := List.mem_map.mp hmem
  rw [keyExist, h.mapped n hn] at hmiss
  cases hmiss

theorem Valid.entries_length {c : LRUCache} (h : c.Valid) : c.entries.length ≤ c.capacity := by
  rw [entries, List.length_map]
  exact h.size_le

/-- A promotion is a touch. -/
theorem Valid.entries_promoted {c : LRUCache} (h : c.Valid) {n : Node} (hn : n ∈ c.cachedData)
    {e : Str × Str} (he : n.elem.1 = e.1) :
    (c.promoted n.addr e).entries = Recency.touch e c.entries := by
  have hfilter : (c.cachedData.filter fun m => m.addr ≠ n.addr) =
      c.cachedData.filter fun m => m.elem.1 ≠ e.1 := by
    refine List.filter_congr fun m hm => decide_eq_decide.mpr ⟨fun hne heq => hne ?_, fun hne heq => hne ?_⟩
    · rw [h.node_eq hm hn (heq.trans he.symm)]
    · rw [h.toSound.node_eq hm hn heq, he]
  show e :: (c.cachedData.filter fun m => m.addr ≠ n.addr).map Node.elem = _
  rw [hfilter, Recency.touch, entries, List.filter_map]
  rfl

theorem touch_length_le {c : LRUCache} (h : c.Valid) {n : Node} (hn : n ∈ c.cachedData)
    {e : Str × Str} (he : n.elem.1 = e.1) : (Recency.touch e c.entries).length ≤ c.capacity := by
  have hlt : (c.entries.filter fun p => p.1 ≠ e.1).length < c.entries.length := by
    refine List.length_filter_lt_length_iff_exists.mpr ⟨n.elem, List.mem_map_of_mem hn, ?_⟩
    simp only [he, ne_eq, not_true_eq_false, decide_false, Bool.false_eq_true, not_false_eq_true]
  exact Nat.le_trans hlt h.entries_length

/-- An insertion is a touch that is cut to the capacity. -/
theorem Valid.entries_inserted {c : LRUCache} (h : c.Valid) {e : Str × Str}
    (hmiss : c.keyExist e.1 = .atEnd) :
    (c.inserted e).entries = (Recency.touch e c.entries).take c.capacity := by
  have hnew : (c.entries.filter fun p => p.1 ≠ e.1) = c.entries :=
    Recency.filter_ne_of_not_mem (c.keys_eq ▸ h.not_mem_keys hmiss)
  have hlen : c.entries.length = c.cachedData.length := List.length_map _
  rw [Recency.touch, hnew, inserted]
  by_cases hfull : c.capacity < c.cachedData.length + 1
  · obtain ⟨kept, last, hsplit⟩ := h.split_last hfull
    have hcap : c.capacity = kept.length + 1 := by
      have := h.size_le
      rw [hsplit, List.length_append, List.length_singleton] at this hfull
      omega
    rw [if_pos hfull, pushFront_evicted hsplit]
    show e :: kept.map Node.elem = _
    rw [hcap, List.take_succ_cons, entries, hsplit, List.map_append,
      List.take_left' (List.length_map _)]
  · rw [if_neg hfull]
    show e :: c.entries = _
    rw [List.take_of_length_le (by rw [List.length_cons, hlen]; omega)]

/-- What is left for an entry list to make a sound cache valid: the list is a bounded recency list,
and the nodes other than the new one are old ones that kept their iterator. -/
theorem Valid.mapBegin {c d : LRUCache} (h : c.Valid) {data : List Node} {e : Str × Str}
    (sound : (d.mapBegin e.1).Sound) (front : d.cachedData = { addr := c.nextAddr, elem := e } :: data)
    (kept : data.Sublist c.cachedData)
    (others : ∀ n ∈ data, n.elem.1 ≠ e.1 ∧ d.hashmap n.elem.1 = c.hashmap n.elem.1)
    (size : data.length + 1 ≤ c.capacity) (capacity : d.capacity = c.capacity) :
    (d.mapBegin e.1).Valid where
  toSound := sound
  keys_nodup := by
    show (d.cachedData.map fun n => n.elem.1).Nodup
    rw [front]
    refine List.nodup_cons.mpr ⟨fun hmem => ?_, h.keys_nodup.sublist (kept.map _)⟩
    obtain ⟨n, hn, heq⟩ := List.mem_map.mp hmem
    exact (others n hn).1 heq
  mapped := by
    show ∀ n ∈ d.cachedData, _
    rw [front]
    intro n hn
    rw [mapBegin_hashmap]
    rcases List.mem_cons.mp hn with rfl | hn
    · rw [if_pos rfl, begin, front]
    · rw [if_neg (others n hn).1, (others n hn).2, h.mapped n (kept.subset hn)]
  size_le := by
    show d.cachedData.length ≤ d.capacity
    rw [front, capacity]
    exact size

theorem Valid.promoted {c : LRUCache} (h : c.Valid) {n : Node} (hn : n ∈ c.cachedData)
    {e : Str × Str} (he : n.elem.1 = e.1) : (c.promoted n.addr e).Valid := by
  have hsize : (c.promoted n.addr e).entries.length ≤ c.capacity := by
    rw [h.entries_promoted hn he]
    exact touch_length_le h hn he
  refine h.mapBegin (h.toSound.promoted hn he) rfl List.filter_sublist (fun m hm => ?_) ?_ rfl
  · obtain ⟨hm, hne⟩ := List.mem_filter.mp hm
    exact ⟨fun heq => of_decide_eq_true hne (by rw [h.node_eq hm hn (heq.trans he.symm)]), rfl⟩
  · rwa [entries, List.length_map] at hsize

theorem Valid.inserted {c : LRUCache} (h : c.Valid) {e : Str × Str}
    (hmiss : c.keyExist e.1 = .atEnd) : (c.inserted e).Valid := by
  have hnew := h.not_mem_keys hmiss
  have hne : ∀ n ∈ c.cachedData, n.elem.1 ≠ e.1 := fun n hn heq =>
    hnew (heq ▸ List.mem_map_of_mem (f := fun n : Node => n.elem.1) hn)
  have hsound := h.toSound.inserted e
  unfold LRUCache.inserted at hsound ⊢
  by_cases hfull : c.capacity < c.cachedData.length + 1
  · obtain ⟨kept, last, hsplit⟩ := h.split_last hfull
    have hsub : kept.Sublist c.cachedData := hsplit ▸ List.sublist_append_left _ _
    rw [if_pos hfull, pushFront_evicted hsplit] at hsound ⊢
    refine h.mapBegin hsound rfl hsub (fun m hm => ⟨hne m (hsub.subset hm), ?_⟩) ?_ rfl
    · -- the key that is unmapped is the last node's, and no other node has it
      refine Function.update_of_ne (fun heq => ?_) _ _
      have hkeys := h.keys_nodup
      rw [keys, hsplit, List.map_append] at hkeys
      exact (List.nodup_append.mp hkeys).2.2 _ (List.mem_map_of_mem hm) _
        (List.mem_map_of_mem (List.mem_singleton_self last)) heq
    · have := h.size_le
      rwa [hsplit, List.length_append, List.length_singleton] at this
  · rw [if_neg hfull] at hsound ⊢
    exact h.mapBegin hsound rfl (List.Sublist.refl _) (fun m hm => ⟨hne m hm, rfl⟩)
      (Nat.not_lt.mp hfull) rfl

/-! ## The methods on a valid cache -/

theorem Valid.lookup_node {c : LRUCache} (h : c.Valid) {n : Node} (hn : n ∈ c.cachedData) :
    Recency.lookup n.elem.1 c.entries = some n.elem.2 := by
  have hmem : n.elem ∈ c.entries := List.mem_map_of_mem hn
  have hkeys : (Recency.keys c.entries).Nodup := c.keys_eq ▸ h.keys_nodup
  exact Recency.lookup_of_mem hkeys hmem

theorem Valid.lookup_miss {c : LRUCache} (h : c.Valid) {key : Str}
    (hmiss : c.keyExist key = .atEnd) : Recency.lookup key c.entries = none :=
  Recency.lookup_of_not_mem (c.keys_eq ▸ h.not_mem_keys hmiss)

/-- **`get` on a valid cache**: it returns the value that the entries have for the key, or the empty
string; a hit touches the entry and logs it. -/
theorem get_valid {c : LRUCache} (h : c.Valid) (key : Str) :
    ∃ c', c.get key = .ok (c', (Recency.lookup key c.entries).getD []) ∧ c'.Valid ∧
      c'.capacity = c.capacity ∧
      match Recency.lookup key c.entries with
      | none => c' = c
      | some val => c'.entries = Recency.touch (key, val) c.entries ∧
          c'.pendingUpdateList = (key, val) :: c.pendingUpdateList := by
  rcases get_cases h.toSound key with ⟨hmiss, hget⟩ | ⟨n, hn, rfl, -, hget⟩
  · rw [h.lookup_miss hmiss]
    exact ⟨c, hget, h, rfl, rfl⟩
  · rw [h.lookup_node hn]
    refine ⟨_, hget, (h.promoted hn rfl).log _ _, log_capacity _ _ _, ?_, ?_⟩
    · rw [log_entries, h.entries_promoted hn rfl]
    · rw [log_pending]
      rfl

/-- **`put` on a valid cache** touches the entry, cuts the entries to the capacity, and logs the
entry unless the put is part of an update. -/
theorem put_valid {c : LRUCache} (h : c.Valid) (key val : Str) (update : Bool) :
    ∃ c', c.put key val update = .ok c' ∧ c'.Valid ∧ c'.capacity = c.capacity ∧
      c'.entries = (Recency.touch (key, val) c.entries).take c.capacity ∧
      c'.pendingUpdateList =
        if update then c.pendingUpdateList else (key, val) :: c.pendingUpdateList := by
  rcases put_cases h.toSound key val update with ⟨hmiss, hput⟩ | ⟨n, hn, hkey, -, hput⟩
  · refine ⟨_, hput, (h.inserted hmiss).log _ _, ?_, ?_, ?_⟩
    · rw [log_capacity, inserted_capacity]
    · rw [log_entries, h.entries_inserted hmiss]
    · rw [log_pending, inserted_pending]
  · refine ⟨_, hput, (h.promoted hn hkey).log _ _, ?_, ?_, ?_⟩
    · rw [log_capacity, promoted_capacity]
    · rw [log_entries, h.entries_promoted hn hkey, List.take_of_length_le (touch_length_le h hn hkey)]
    · rw [log_pending, promoted_pending]

/-- **`update` on a valid cache** replays the other cache's log, oldest entry first. -/
theorem update_valid {c : LRUCache} (h : c.Valid) (pending : List (Str × Str)) :
    ∃ c', c.update pending = .ok c' ∧ c'.Valid ∧ c'.capacity = c.capacity ∧
      c'.pendingUpdateList = c.pendingUpdateList ∧
      c'.entries = Recency.replayBounded c.capacity pending.reverse c.entries := by
  -- the abstract state of the loop is the list of entries
  have sim : ∀ (d : LRUCache) (entries : List (Str × Str)) (e : Str × Str),
      (d.Valid ∧ d.capacity = c.capacity ∧ d.pendingUpdateList = c.pendingUpdateList ∧
        d.entries = entries) → True →
      ∃ d', d.put e.1 e.2 true = .ok d' ∧ d'.Valid ∧ d'.capacity = c.capacity ∧
        d'.pendingUpdateList = c.pendingUpdateList ∧
        d'.entries = (Recency.touch e entries).take c.capacity := by
    rintro d entries e ⟨hd, hcap, hpending, rfl⟩ -
    obtain ⟨d', hput, hd', hcap', hentries', hpending'⟩ := put_valid hd e.1 e.2 true
    exact ⟨d', hput, hd', hcap'.trans hcap, hpending'.trans hpending, hcap ▸ hentries'⟩
  exact Run.run_refines _ _ _ sim ⟨h, rfl, rfl, rfl⟩ pending.reverse fun _ _ => trivial

theorem mergeLoop_eq (pending rhs : List (Str × Str)) : mergeLoop pending rhs = pending ++ rhs := by
  induction rhs generalizing pending with
  | nil => exact (List.append_nil pending).symm
  | cons e rhs ih => rw [mergeLoop, ih, List.append_assoc, List.singleton_append]

/-- The log is no part of the representation. -/
theorem Valid.with_pending {c : LRUCache} (h : c.Valid) (pending : List (Str × Str)) :
    ({ c with pendingUpdateList := pending } : LRUCache).Valid where
  capacity_pos := h.capacity_pos
  addrs_nodup := h.addrs_nodup
  addrs_lt := h.addrs_lt
  live := h.live
  keys_nodup := h.keys_nodup
  mapped := h.mapped
  size_le := h.size_le

end LRUCache

/-! ## Calls on several caches -/

/-- A call of one method of `LRUCache`, on one cache of several. -/
inductive Call (n : Nat) where
  | get (i : Fin n) (key : Str)
  | put (i : Fin n) (key val : Str) (update : Bool)
  | update (i other : Fin n)
  | mergePendingList (i other : Fin n)
  | clearPendingList (i : Fin n)

/-- The caches after a call. -/
def call {n : Nat} (caches : Caches n) : Call n → Except Fault (Caches n)
  | .get i key => do
    let (caches, _) ← caches.get i key
    .ok caches
  | .put i key val update => caches.put i key val update
  | .update i other => caches.update i other
  | .mergePendingList i other => .ok (caches.mergePendingList i other)
  | .clearPendingList i => .ok (caches.clearPendingList i)

namespace Caches

variable {n : Nat}

/-- Each cache is valid and has the capacity it was created with. -/
def Valid (capacity : Fin n → Nat) (caches : Caches n) : Prop :=
  ∀ i, (caches i).Valid ∧ (caches i).capacity = capacity i

theorem Valid.set {capacity : Fin n → Nat} {caches : Caches n} (h : caches.Valid capacity)
    {i : Fin n} {c : LRUCache} (hc : c.Valid) (hcap : c.capacity = (caches i).capacity) :
    Valid capacity (Function.update caches i c) := by
  intro j
  by_cases hj : j = i
  · subst hj
    rw [Function.update_self]
    exact ⟨hc, hcap.trans (h j).2⟩
  · rw [Function.update_of_ne hj]
    exact h j

/-- Two caches after a merge: the log of the other one is behind the log of the first. -/
theorem mergePendingList_of_ne (caches : Caches n) {i other : Fin n} (hne : i ≠ other) :
    caches.mergePendingList i other =
      Function.update (Function.update caches i { caches i with
        pendingUpdateList := (caches i).pendingUpdateList ++ (caches other).pendingUpdateList })
      other (caches other).clearPendingList := by
  rw [Caches.mergePendingList, if_neg hne, LRUCache.mergeLoop_eq]

end Caches

/-- **Every call keeps the representation invariant of every cache**, whichever cache it names as the
other one. -/
theorem valid_call {n : Nat} {capacity : Fin n → Nat} {caches : Caches n}
    (h : caches.Valid capacity) (op : Call n) :
    ∃ caches', call caches op = .ok caches' ∧ caches'.Valid capacity := by
  cases op with
  | get i key =>
    obtain ⟨c', hget, hc', hcap, -⟩ := LRUCache.get_valid (h i).1 key
    exact ⟨_, by simp only [call, Caches.get, hget, Except.ok_bind], h.set hc' hcap⟩
  | put i key val update =>
    obtain ⟨c', hput, hc', hcap, -⟩ := LRUCache.put_valid (h i).1 key val update
    exact ⟨_, by simp only [call, Caches.put, hput, Except.ok_bind], h.set hc' hcap⟩
  | update i other =>
    obtain ⟨c', hupdate, hc', hcap, -⟩ :=
      LRUCache.update_valid (h i).1 (caches other).pendingUpdateList
    exact ⟨_, by simp only [call, Caches.update, hupdate, Except.ok_bind], h.set hc' hcap⟩
  | mergePendingList i other =>
    refine ⟨_, rfl, ?_⟩
    unfold Caches.mergePendingList
    split
    · exact h
    · next hne =>
      have hfirst := h.set (i := i) ((h i).1.with_pending
        (LRUCache.mergeLoop (caches i).pendingUpdateList (caches other).pendingUpdateList)) rfl
      refine hfirst.set (i := other) ((h other).1.with_pending []) ?_
      rw [Function.update_of_ne (Ne.symm hne)]
      rfl
  | clearPendingList i => exact ⟨_, rfl, h.set ((h i).1.with_pending []) rfl⟩

/-- Caches that were just created are valid. -/
theorem valid_new_caches {n : Nat} {capacity : Fin n → Nat} (hpos : ∀ i, 1 ≤ capacity i) :
    Caches.Valid capacity fun i => LRUCache.new (capacity i) :=
  fun i => ⟨LRUCache.valid_new (hpos i), rfl⟩

/-- **The representation invariant of reachable caches.** Whatever the calls on newly created caches
and whichever caches they name, no call faults, and in the state they reach each cache has the
representation invariant at the capacity it was created with. -/
theorem reachable_representation {n : Nat} (capacity : Fin n → Nat) (hpos : ∀ i, 1 ≤ capacity i)
    (calls : List (Call n)) :
    ∃ caches : Caches n, Run.run call (fun i => LRUCache.new (capacity i)) calls = .ok caches ∧
      ∀ i, (caches i).Representation (capacity i) := by
  obtain ⟨caches, hrun, hvalid⟩ := Run.run_always (Caches.Valid capacity)
    (fun _ op h => valid_call h op) (valid_new_caches hpos) calls
  exact ⟨caches, hrun, fun i => (hvalid i).2 ▸ (hvalid i).1.representation⟩

/-- The invariant after two caches of capacity one evict, update each other and update themselves. -/
theorem reachable_representation_two :
    (∀ i : Fin 2, 1 ≤ (fun _ => 1 : Fin 2 → Nat) i) ∧
    ∃ caches : Caches 2,
      Run.run call (fun _ => LRUCache.new 1)
        [.put 0 (lit "a") (lit "1") false, .put 0 (lit "b") (lit "2") false, .update 1 0,
          .mergePendingList 1 0, .update 1 1, .get 0 (lit "b"), .clearPendingList 1] = .ok caches ∧
      ∀ i, (caches i).Representation 1 :=
  ⟨fun _ => Nat.le_refl 1, reachable_representation (fun _ => 1) (fun _ => Nat.le_refl 1) _⟩

end LightSearch
