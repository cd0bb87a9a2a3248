import LightSearch.Utility.LRURefinement

/-!
# The backup file of a cache

`writeToFile` prints the entries, one on a line: the key, a blank, the value. `readFromFile` reads
each line two words at a time and appends every pair, and then points the map at the nodes.

The two are written apart, and they differ in two ways from what the rest of the class does.

- `readFromFile` does not go through `put`: it looks at neither the capacity nor the keys that are
  there. So the representation invariant holds after loading exactly for the files whose pairs have
  distinct keys and are few enough (`loadsWell_iff`).
- A key is printed as it is and read as a word. So the entries come back exactly when every key is
  one word (`filePairs_writeToFile_iff`).
-/

set_option autoImplicit false

namespace LightSearch

open Cxx

namespace LRUCache

/-- `_cachedData.push_back(elem)`. -/
def pushBack (c : LRUCache) (elem : Str × Str) : LRUCache :=
  { c with cachedData := c.cachedData ++ [{ addr := c.nextAddr, elem := elem }],
           nextAddr := c.nextAddr + 1 }

/-- The loop `while (iss >> key >> value)` on the words of a line: an odd last word is read into
`key` and dropped. -/
def readPairs (c : LRUCache) : List Str → LRUCache
  | key :: value :: rest => readPairs (c.pushBack (key, value)) rest
  | [_] => c
  | [] => c

def readLine (c : LRUCache) (line : Str) : LRUCache :=
  if line.length ≠ 0 then c.readPairs (words line) else c

/-- `_hashmap[it->first] = it`. -/
def mapNode (m : Str → Option ListIter) (n : Node) : Str → Option ListIter :=
  Function.update m n.elem.1 (some (.node n.addr))

/-- The last loop of `readFromFile`: each node is mapped from its key, so that the last node of a
key wins. -/
def mapNodes (c : LRUCache) : LRUCache :=
  { c with hashmap := c.cachedData.foldl mapNode c.hashmap }

/-- Load the contents of the backup file; a file that does not open reads as an empty one. -/
def readFromFile (c : LRUCache) (contents : Str) : LRUCache :=
  ((getlines contents).foldl readLine c).mapNodes

/-- The contents that `writeToFile` leaves in the file. -/
def writeToFile (c : LRUCache) : Str :=
  c.entries.flatMap fun elem => elem.1 ++ blank :: (elem.2 ++ [newline])

end LRUCache

/-! ## What a file says -/

/-- Words, two at a time. -/
def pairUp : List Str → List (Str × Str)
  | key :: value :: rest => (key, value) :: pairUp rest
  | [_] => []
  | [] => []

/-- The pairs a file names: the words of each line, two at a time. -/
def filePairs (contents : Str) : List (Str × Str) :=
  (getlines contents).flatMap fun line => pairUp (words line)

theorem pairUp_words {ws : List Str} {e : Str × Str} (h : e ∈ pairUp ws) :
    e.1 ∈ ws ∧ e.2 ∈ ws := by
  fun_induction pairUp ws with
  | case1 key value rest ih =>
    rcases List.mem_cons.mp h with rfl | h
    · exact ⟨List.mem_cons_self, List.mem_cons_of_mem _ List.mem_cons_self⟩
    · obtain ⟨h₁, h₂⟩ := ih h
      exact ⟨List.mem_cons_of_mem _ (List.mem_cons_of_mem _ h₁),
        List.mem_cons_of_mem _ (List.mem_cons_of_mem _ h₂)⟩
  | case2 => cases h
  | case3 => cases h

/-- A key that a file names is one word. -/
theorem filePairs_word {contents : Str} {e : Str × Str} (h : e ∈ filePairs contents) :
    Word e.1 := by
  obtain ⟨line, -, hline⟩ := List.mem_flatMap.mp h
  exact words_clean line _ (pairUp_words hline).1

/-- A printed entry of words, read back. -/
theorem filePairs_entry {key value : Str} (hkey : Word key) (hvalue : Word value) (rest : Str) :
    filePairs (key ++ blank :: (value ++ newline :: rest)) = (key, value) :: filePairs rest := by
  have hspace : isspace newline = true := rfl
  have hclean : newline ∉ key ++ blank :: value := by
    intro hmem
    rcases List.mem_append.mp hmem with hmem | hmem
    · exact absurd hspace (by rw [hkey.2 _ hmem]; exact Bool.false_ne_true)
    · rcases List.mem_cons.mp hmem with heq | hmem
      · cases heq
      · exact absurd hspace (by rw [hvalue.2 _ hmem]; exact Bool.false_ne_true)
  have hline : key ++ blank :: (value ++ newline :: rest) =
      (key ++ blank :: value) ++ newline :: rest := by
    simp only [List.append_assoc, List.cons_append]
  have hwords : words (key ++ blank :: value) = [key, value] := by
    rw [words_append_space hkey rfl, words_self hvalue]
  rw [hline, filePairs, getlines_append_newline hclean, List.flatMap_cons, hwords]
  rfl

/-- **Writing and reading are inverse exactly on keys that are words**, the values being words. -/
theorem filePairs_writeToFile_iff {c : LRUCache} (values : ∀ e ∈ c.entries, Word e.2) :
    filePairs c.writeToFile = c.entries ↔ ∀ e ∈ c.entries, Word e.1 := by
  refine ⟨fun h e he => filePairs_word (h ▸ he), fun keys => ?_⟩
  unfold LRUCache.writeToFile
  generalize c.entries = entries at values keys
  induction entries with
  | nil => rfl
  | cons e entries ih =>
    rw [List.flatMap_cons, List.append_assoc, List.cons_append, List.append_assoc,
      List.singleton_append, filePairs_entry (keys e List.mem_cons_self)
        (values e List.mem_cons_self),
      ih (fun e he => values e (List.mem_cons_of_mem _ he))
        (fun e he => keys e (List.mem_cons_of_mem _ he))]

/-! ## Loading -/

namespace LRUCache

/-- A cache in the middle of loading: the pairs read so far, in fresh nodes, and no key mapped. -/
structure Loading (capacity : Nat) (pairs : List (Str × Str)) (c : LRUCache) : Prop where
  capacity_eq : c.capacity = capacity
  entries_eq : c.entries = pairs
  addrs_nodup : (c.cachedData.map Node.addr).Nodup
  addrs_lt : ∀ n ∈ c.cachedData, n.addr < c.nextAddr
  hashmap_eq : c.hashmap = fun _ => none
  pending_eq : c.pendingUpdateList = []

theorem loading_new (capacity : Nat) : Loading capacity [] (new capacity) where
  capacity_eq := rfl
  entries_eq := rfl
  addrs_nodup := List.nodup_nil
  addrs_lt := fun _ hn => absurd hn List.not_mem_nil
  hashmap_eq := rfl
  pending_eq := rfl

variable {capacity : Nat} {pairs : List (Str × Str)} {c : LRUCache}

theorem Loading.pushBack (h : Loading capacity pairs c) (e : Str × Str) :
    Loading capacity (pairs ++ [e]) (c.pushBack e) where
  capacity_eq := h.capacity_eq
  entries_eq := by
    show (c.cachedData ++ _).map Node.elem = _
    rw [List.map_append, ← h.entries_eq]
    rfl
  addrs_nodup := by
    show ((c.cachedData ++ _).map Node.addr).Nodup
    rw [List.map_append]
    refine List.nodup_append.mpr ⟨h.addrs_nodup, List.nodup_singleton _, ?_⟩
    intro a ha b hb heq
    obtain ⟨n, hn, rfl⟩ := List.mem_map.mp ha
    obtain rfl := List.mem_singleton.mp hb
    exact absurd (h.addrs_lt n hn) (heq ▸ Nat.lt_irrefl _)
  addrs_lt := by
    show ∀ n ∈ c.cachedData ++ _, n.addr < c.nextAddr + 1
    intro n hn
    rcases List.mem_append.mp hn with hn | hn
    · exact Nat.lt_succ_of_lt (h.addrs_lt n hn)
    · exact List.mem_singleton.mp hn ▸ Nat.lt_succ_self _
  hashmap_eq := h.hashmap_eq
  pending_eq := h.pending_eq

theorem Loading.readPairs (h : Loading capacity pairs c) (ws : List Str) :
    Loading capacity (pairs ++ pairUp ws) (c.readPairs ws) := by
  fun_induction pairUp ws generalizing pairs c with
  | case1 key value rest ih =>
    have := ih (h.pushBack (key, value))
    rwa [List.append_assoc] at this
  | case2 => rwa [List.append_nil]
  | case3 => rwa [List.append_nil]

theorem Loading.readLine (h : Loading capacity pairs c) (line : Str) :
    Loading capacity (pairs ++ pairUp (words line)) (c.readLine line) := by
  unfold LRUCache.readLine
  split
  · exact h.readPairs _
  · next hempty =>
    rw [List.length_eq_zero_iff.mp (not_not.mp hempty)]
    exact (List.append_nil pairs).symm ▸ h

theorem Loading.readLines (h : Loading capacity pairs c) (lines : List Str) :
    Loading capacity (pairs ++ lines.flatMap fun line => pairUp (words line))
      (lines.foldl LRUCache.readLine c) := by
  induction lines generalizing pairs c with
  | nil => exact (List.append_nil pairs).symm ▸ h
  | cons line lines ih =>
    have := ih (h.readLine line)
    rwa [List.append_assoc] at this

/-- The map after the last loop: an iterator of it was there before or refers to a node. -/
theorem mapNodes_live {nodes : List Node} {m : Str → Option ListIter} {key : Str} {it : ListIter}
    (h : nodes.foldl mapNode m key = some it) :
    m key = some it ∨ ∃ n ∈ nodes, n.elem.1 = key ∧ it = .node n.addr := by
  induction nodes generalizing m with
  | nil => exact .inl h
  | cons n nodes ih =>
    rcases ih h with h | ⟨n', hn', hkey, hit⟩
    · rw [mapNode, Function.update_apply] at h
      split at h
      · next hkey => exact .inr ⟨n, List.mem_cons_self, hkey.symm, (Option.some.inj h).symm⟩
      · exact .inl h
    · exact .inr ⟨n', List.mem_cons_of_mem _ hn', hkey, hit⟩

theorem mapNodes_other {nodes : List Node} (m : Str → Option ListIter) {key : Str}
    (h : ∀ n ∈ nodes, n.elem.1 ≠ key) :
    nodes.foldl mapNode m key = m key := by
  induction nodes generalizing m with
  | nil => rfl
  | cons n nodes ih =>
    rw [List.foldl_cons, ih _ fun n' hn' => h n' (List.mem_cons_of_mem _ hn')]
    exact Function.update_of_ne (Ne.symm (h n List.mem_cons_self)) _ _

/-- When the keys are distinct, every node ends up mapped from its key. -/
theorem mapNodes_mapped {nodes : List Node} (m : Str → Option ListIter)
    (hnodup : (nodes.map fun n => n.elem.1).Nodup) {n : Node} (hn : n ∈ nodes) :
    nodes.foldl mapNode m n.elem.1 =
      some (.node n.addr) := by
  induction nodes generalizing m with
  | nil => exact absurd hn List.not_mem_nil
  | cons n' nodes ih =>
    obtain ⟨hfresh, hrest⟩ := List.nodup_cons.mp hnodup
    rcases List.mem_cons.mp hn with rfl | hn
    · rw [List.foldl_cons, mapNodes_other, mapNode, Function.update_self]
      exact fun n' hn' heq => hfresh (List.mem_map.mpr ⟨n', hn', heq⟩)
    · exact ih _ hrest hn

theorem loading_readFromFile (capacity : Nat) (contents : Str) :
    Loading capacity (filePairs contents)
      ((getlines contents).foldl LRUCache.readLine (new capacity)) := by
  have h := (loading_new capacity).readLines (getlines contents)
  rwa [List.nil_append] at h

/-- A new cache that loads a file has the pairs of the file as its entries. -/
theorem readFromFile_entries (capacity : Nat) (contents : Str) :
    ((new capacity).readFromFile contents).entries = filePairs contents :=
  (loading_readFromFile capacity contents).entries_eq

/-- Loading logs nothing. -/
theorem readFromFile_pending (capacity : Nat) (contents : Str) :
    ((new capacity).readFromFile contents).pendingUpdateList = [] :=
  (loading_readFromFile capacity contents).pending_eq

/-- Whatever the file, a cache that has loaded it does not fault. -/
theorem sound_readFromFile (hpos : 1 ≤ capacity) (contents : Str) :
    ((new capacity).readFromFile contents).Sound := by
  have h := loading_readFromFile capacity contents
  refine ⟨h.capacity_eq.symm ▸ hpos, h.addrs_nodup, h.addrs_lt, fun key it hit => ?_⟩
  rcases mapNodes_live hit with hold | hnode
  · rw [h.hashmap_eq] at hold
    cases hold
  · exact hnode

/-- A cache that has loaded few enough pairs with distinct keys is valid. -/
theorem valid_readFromFile (hpos : 1 ≤ capacity) {contents : Str}
    (distinct : (Recency.keys (filePairs contents)).Nodup)
    (few : (filePairs contents).length ≤ capacity) :
    ((new capacity).readFromFile contents).Valid := by
  have h := loading_readFromFile capacity contents
  have hentries := readFromFile_entries capacity contents
  have hkeys : ((new capacity).readFromFile contents).keys.Nodup := by
    rwa [keys_eq, hentries]
  refine ⟨sound_readFromFile hpos contents, hkeys, fun n hn => mapNodes_mapped _ hkeys hn, ?_⟩
  rw [← hentries, entries, List.length_map] at few
  exact h.capacity_eq.symm ▸ few

end LRUCache

/-- A key is found: `get` hits and returns the value its entry has. -/
def LRUCache.Finds (c : LRUCache) (key : Str) : Prop :=
  c.keyExist key ≠ .atEnd ∧ ∃ c' val, c.get key = .ok (c', val) ∧ (key, val) ∈ c.entries

theorem LRUCache.Valid.finds {c : LRUCache} (h : c.Valid) {key : Str} (hkey : key ∈ c.keys) :
    c.Finds key := by
  obtain ⟨n, hn, rfl⟩ := List.mem_map.mp hkey
  have hmapped : c.keyExist n.elem.1 = .node n.addr := by rw [keyExist, h.mapped n hn]
  obtain ⟨c', hget, -⟩ := get_valid h n.elem.1
  rw [h.lookup_node hn] at hget
  exact ⟨by rw [hmapped]; exact ListIter.noConfusion, c', n.elem.2, hget, List.mem_map_of_mem hn⟩

/-- **Calls keep a valid cache valid**, and its capacity. -/
theorem valid_observe {capacity : Nat} {s : LRUCache × List Observation}
    (h : s.1.Valid ∧ s.1.capacity = capacity) (op : Op) :
    ∃ s', observe s op = .ok s' ∧ s'.1.Valid ∧ s'.1.capacity = capacity := by
  cases op with
  | get key =>
    obtain ⟨c', hget, hvalid, hcap, -⟩ := LRUCache.get_valid h.1 key
    exact ⟨_, by simp only [observe, hget, Except.ok_bind]; rfl, hvalid, hcap.trans h.2⟩
  | put key val update =>
    obtain ⟨c', hput, hvalid, hcap, -⟩ := LRUCache.put_valid h.1 key val update
    exact ⟨_, by simp only [observe, hput, Except.ok_bind]; rfl, hvalid, hcap.trans h.2⟩

/-- Loading is right: the cache has the representation invariant, and keeps it in the sense that
after any calls every key of the list is found and the list is no longer than the capacity. -/
def LoadsWell (capacity : Nat) (contents : Str) : Prop :=
  ((LRUCache.new capacity).readFromFile contents).Representation capacity ∧
    ∀ ops, ∃ c history,
      Run.run observe ((LRUCache.new capacity).readFromFile contents, []) ops = .ok (c, history) ∧
        (∀ key ∈ c.keys, c.Finds key) ∧ c.cachedData.length ≤ capacity

/-- **Loading is right exactly for the files that fit**: the pairs the file names have distinct keys,
and there are no more of them than the capacity. -/
theorem loadsWell_iff (capacity : Nat) (hpos : 1 ≤ capacity) (contents : Str) :
    LoadsWell capacity contents ↔
      (Recency.keys (filePairs contents)).Nodup ∧ (filePairs contents).length ≤ capacity := by
  constructor
  · rintro ⟨h, -⟩
    have hnodup := h.keys_nodup
    have hsize := h.size_le
    rw [LRUCache.keys_eq, LRUCache.readFromFile_entries] at hnodup
    rw [← List.length_map (f := Node.elem)] at hsize
    exact ⟨hnodup, LRUCache.readFromFile_entries capacity contents ▸ hsize⟩
  · rintro ⟨distinct, few⟩
    have hvalid := LRUCache.valid_readFromFile hpos distinct few
    have hcap := (LRUCache.loading_readFromFile capacity contents).capacity_eq
    have hrep := hvalid.representation
    rw [show ((LRUCache.new capacity).readFromFile contents).capacity = capacity from hcap] at hrep
    refine ⟨hrep, fun ops => ?_⟩
    obtain ⟨⟨c, history⟩, hrun, hc, hccap⟩ := Run.run_always
      (fun s => s.1.Valid ∧ s.1.capacity = capacity) (fun _ op h => valid_observe h op)
      (s := ((LRUCache.new capacity).readFromFile contents, [])) ⟨hvalid, hcap⟩ ops
    exact ⟨c, history, hrun, fun key hkey => hc.finds hkey, hccap ▸ hc.size_le⟩

/-- A file of two pairs, at capacity two. -/
theorem loadsWell_iff_two :
    1 ≤ 2 ∧ (LoadsWell 2 (lit "a 1\nb 2\n") ↔
      (Recency.keys (filePairs (lit "a 1\nb 2\n"))).Nodup ∧
        (filePairs (lit "a 1\nb 2\n")).length ≤ 2) :=
  ⟨Nat.le_succ 1, loadsWell_iff 2 (Nat.le_succ 1) _⟩

/-- A key that is loaded twice has two nodes and one place in the map. When the stale node is evicted
its key is unmapped, and the key that is still in the list is not found. -/
theorem not_loadsWell_repeated :
    ¬ LoadsWell 2 (lit "a 1\na 2\n") ∧
    ∃ c history, Run.run observe ((LRUCache.new 2).readFromFile (lit "a 1\na 2\n"), [])
        [.put (lit "b") (lit "3") false] = .ok (c, history) ∧
      lit "a" ∈ c.keys ∧ c.keyExist (lit "a") = .atEnd ∧ c.get (lit "a") = .ok (c, []) := by
  refine ⟨fun h => absurd h.1.keys_nodup (by decide), _, _, rfl, by decide, by decide, ?_⟩
  rfl

end LightSearch
