import LightSearch.Cppjieba.Unicode
import LightSearch.Lib.Trie

/-!
# The trie of the dictionary

The words of the dictionary are in a trie under their runes. The segmenters do not ask for single words:
for every rune of a text `Find` lists the words that begin there, with the places where they end, in one
walk down the trie. The list begins with the rune alone, whether or not it is a word.

The trie is what the list of the units says, the last unit of a word first (`find?_createTrie`), and the
places of `Find` are those of the words of the dictionary, up to the greatest length
(`findDags_eq`, `mem_nextsAt_some`).
-/

set_option autoImplicit false

namespace LightSearch.Cppjieba

open Cxx

variable {W : Type}

/-- `MAX_WORD_LENGTH`. -/
def maxWordLength : Nat := 512

/-- A word of the dictionary. -/
structure DictUnit (W : Type) where
  word : List Rune
  weight : W
  tag : Str
  deriving DecidableEq

/-- What `Find` says about a rune; the segmenters fill in the last two fields. -/
structure Dag (W : Type) where
  runestr : RuneStr
  nexts : List (Nat × Option (DictUnit W))
  pInfo : Option (DictUnit W)
  weight : W

/-- `InsertNode`. -/
def insertNode (root : Trie Rune (DictUnit W)) (key : List Rune) (ptValue : DictUnit W) :
    Trie Rune (DictUnit W) :=
  if key = [] then root else root.insert key ptValue

/-- `CreateTrie`. -/
def createTrie (keys : List (List Rune)) (valuePointers : List (DictUnit W)) :
    Trie Rune (DictUnit W) :=
  (keys.zip valuePointers).foldl (fun root p => insertNode root p.1 p.2) Trie.empty

/-- The inner loop of `Find` from the rune `j` on: the words that go on below `ptNode`, with at most
`room` runes more. -/
def nextsBelow (j : Nat) : Nat → Trie Rune (DictUnit W) → List RuneStr →
    List (Nat × Option (DictUnit W))
  | 0, _, _ => []
  | _, _, [] => []
  | room + 1, ptNode, r :: rest =>
    match ptNode.child r.rune with
    | none => []
    | some ptNode =>
      match ptNode.value with
      | none => nextsBelow (j + 1) room ptNode rest
      | some unit => (j, some unit) :: nextsBelow (j + 1) room ptNode rest

/-- The round of `Find` for the rune `i`, with the runes behind it. -/
def nextsFrom (root : Trie Rune (DictUnit W)) (max_word_len i : Nat) (r : RuneStr)
    (rest : List RuneStr) : List (Nat × Option (DictUnit W)) :=
  match root.child r.rune with
  | none => [(i, none)]
  | some ptNode => (i, ptNode.value) :: nextsBelow (i + 1) (max_word_len - 1) ptNode rest

variable [Zero W]

/-- `Find` from the rune `i` on. -/
def findFrom (root : Trie Rune (DictUnit W)) (max_word_len : Nat) : Nat → List RuneStr → List (Dag W)
  | _, [] => []
  | i, r :: rest =>
    ⟨r, nextsFrom root max_word_len i r rest, none, 0⟩ :: findFrom root max_word_len (i + 1) rest

/-- `Find` over a range of runes. -/
def findDags (root : Trie Rune (DictUnit W)) (max_word_len : Nat) (runes : List RuneStr) :
    List (Dag W) :=
  findFrom root max_word_len 0 runes

omit [Zero W]

/-! ## The words -/

theorem find?_insertNode {root : Trie Rune (DictUnit W)} {key : List Rune} (hkey : key ≠ [])
    (key' : List Rune) (unit : DictUnit W) :
    (insertNode root key' unit).find? key = if key = key' then some unit else root.find? key := by
  unfold insertNode
  split
  · next h =>
    subst h
    rw [if_neg hkey]
  · exact Trie.find?_insert root key' key unit

theorem value_insertNode (root : Trie Rune (DictUnit W)) (key : List Rune) (unit : DictUnit W) :
    (insertNode root key unit).value = root.value := by
  unfold insertNode
  split
  · rfl
  · next h =>
    cases key with
    | nil => exact absurd rfl h
    | cons k key => rfl

/-- **What the trie has under a key**: the last of the units with that word, and nothing under the empty
key. -/
theorem find?_createTrie (units : List (DictUnit W)) (key : List Rune) :
    (createTrie (units.map DictUnit.word) units).find? key =
      if key = [] then none else units.reverse.find? fun unit => unit.word = key := by
  unfold createTrie
  rw [← List.map_prod_right_eq_zip, List.foldl_map]
  by_cases hkey : key = []
  · subst hkey
    have hvalue : ∀ (units : List (DictUnit W)) (root : Trie Rune (DictUnit W)),
        (units.foldl (fun root unit => insertNode root unit.word unit) root).value = root.value := by
      intro units
      induction units with
      | nil => exact fun _ => rfl
      | cons unit units ih => exact fun root => (ih _).trans (value_insertNode root _ unit)
    rw [if_pos rfl]
    exact hvalue units Trie.empty
  · rw [if_neg hkey]
    -- the last unit of the list is inserted last
    induction units using List.reverseRecOn with
    | nil => exact Trie.find?_empty key
    | append_singleton units unit ih =>
      rw [List.foldl_append, List.reverse_append, List.foldl_cons, List.foldl_nil,
        find?_insertNode hkey, ih, List.reverse_singleton, List.singleton_append,
        List.find?_cons]
      by_cases hword : unit.word = key
      · rw [if_pos hword.symm, decide_eq_true hword]
      · rw [if_neg (Ne.symm hword), decide_eq_false hword]

/-! ## The places -/

/-- The word that a range of runes is, if it is one that `Find` gets to. -/
def wordAt (root : Trie Rune (DictUnit W)) (max_word_len : Nat) (keys : List Rune) (wr : WordRange) :
    Option (DictUnit W) :=
  if wr.right < keys.length ∧ (wr.left = wr.right ∨
      wr.left < wr.right ∧ wr.right - wr.left + 1 ≤ max_word_len) then
    root.find? (wr.slice keys)
  else none

/-- What `Find` says about the rune `i`: the rune alone, and the longer words that begin there. -/
def nextsAt (root : Trie Rune (DictUnit W)) (max_word_len : Nat) (keys : List Rune) (i : Nat) :
    List (Nat × Option (DictUnit W)) :=
  (i, wordAt root max_word_len keys ⟨i, i⟩) ::
    (List.range (keys.length - (i + 1))).filterMap fun k =>
      (wordAt root max_word_len keys ⟨i, i + 1 + k⟩).map fun unit => (i + 1 + k, some unit)

/-- The places below a node: the words that go on from there. -/
theorem nextsBelow_eq (node : Trie Rune (DictUnit W)) (j room : Nat) (rest : List RuneStr) :
    nextsBelow j room node rest = (List.range (min room rest.length)).filterMap fun k =>
      (node.find? ((rest.map RuneStr.rune).take (k + 1))).map fun unit => (j + k, some unit) := by
  induction room generalizing j node rest with
  | zero => rw [nextsBelow, Nat.zero_min]; rfl
  | succ room ih =>
    cases rest with
    | nil => rfl
    | cons r rest =>
      rw [nextsBelow, List.length_cons, Nat.add_min_add_right, List.map_cons]
      simp only [List.take_succ_cons]
      cases hchild : node.child r.rune with
      | none =>
        symm
        rw [List.filterMap_eq_nil_iff]
        intro k _
        rw [Trie.find?_cons, hchild]
        rfl
      | some ptNode =>
        have hfind : ∀ key, node.find? (r.rune :: key) = ptNode.find? key := fun key => by
          rw [Trie.find?_cons, hchild]
          rfl
        have hbelow : nextsBelow (j + 1) room ptNode rest =
            ((List.range (min room rest.length)).map Nat.succ).filterMap fun k =>
              (ptNode.find? ((rest.map RuneStr.rune).take k)).map fun unit => (j + k, some unit) := by
          rw [ih, List.filterMap_map]
          refine List.filterMap_congr fun k _ => ?_
          rw [Function.comp_apply, Nat.succ_eq_add_one, Nat.add_assoc, Nat.add_comm 1 k]
        simp only [hfind]
        rw [List.range_succ_eq_map, List.filterMap_cons, List.take_zero, Trie.find?_nil, hbelow]
        cases ptNode.value with
        | none => rfl
        | some unit => rfl

/-- The round for a rune: the rune alone, and the longer words. -/
theorem nextsFrom_eq (root : Trie Rune (DictUnit W)) (max_word_len i : Nat) (r : RuneStr)
    (rest : List RuneStr) :
    nextsFrom root max_word_len i r rest = (i, root.find? [r.rune]) ::
      (List.range (min (max_word_len - 1) rest.length)).filterMap fun k =>
        (root.find? (r.rune :: (rest.map RuneStr.rune).take (k + 1))).map fun unit =>
          (i + 1 + k, some unit) := by
  unfold nextsFrom
  simp only [Trie.find?_cons]
  cases hchild : root.child r.rune with
  | none =>
    simp only [Option.bind_none, Option.map_none, List.filterMap_none]
  | some ptNode =>
    simp only [Option.bind_some]
    rw [nextsBelow_eq]
    rfl

section Places

variable {root : Trie Rune (DictUnit W)} {max_word_len : Nat} {keys : List Rune} {i j : Nat}
  {unit : DictUnit W}

theorem wordAt_single (hi : i < keys.length) :
    wordAt root max_word_len keys ⟨i, i⟩ = root.find? (Span.slice keys ⟨i, i⟩) :=
  if_pos ⟨hi, .inl rfl⟩

theorem wordAt_eq_some {wr : WordRange} :
    wordAt root max_word_len keys wr = some unit ↔
      wr.right < keys.length ∧ (wr.left = wr.right ∨
        wr.left < wr.right ∧ wr.right - wr.left + 1 ≤ max_word_len) ∧
      root.find? (wr.slice keys) = some unit := by
  unfold wordAt
  split
  · next h => exact ⟨fun hfind => ⟨h.1, h.2, hfind⟩, fun hword => hword.2.2⟩
  · next h => exact ⟨fun hfind => (Option.some_ne_none _ hfind.symm).elim,
      fun hword => absurd ⟨hword.1, hword.2.1⟩ h⟩

/-- **The places of a rune** are the ends of the words that begin there. -/
theorem mem_nextsAt_some :
    (j, some unit) ∈ nextsAt root max_word_len keys i ↔
      wordAt root max_word_len keys ⟨i, j⟩ = some unit := by
  unfold nextsAt
  rw [List.mem_cons, Prod.mk.injEq, List.mem_filterMap]
  constructor
  · rintro (⟨rfl, hword⟩ | ⟨k, -, hk⟩)
    · exact hword.symm
    · obtain ⟨unit', hword, heq⟩ := Option.map_eq_some_iff.mp hk
      obtain ⟨rfl, hsome⟩ := Prod.mk.inj heq
      rw [hword, hsome]
  · intro hword
    obtain ⟨hlt, hlen, -⟩ := wordAt_eq_some.mp hword
    dsimp only at hlt hlen
    rcases hlen with rfl | ⟨hij, -⟩
    · exact .inl ⟨rfl, hword.symm⟩
    · have hj : j = i + 1 + (j - (i + 1)) := by omega
      refine .inr ⟨j - (i + 1), List.mem_range.mpr (by omega), ?_⟩
      rw [← hj, hword]
      rfl

theorem mem_nextsAt_none :
    (j, none) ∈ nextsAt root max_word_len keys i ↔
      j = i ∧ wordAt root max_word_len keys ⟨i, i⟩ = none := by
  unfold nextsAt
  rw [List.mem_cons, Prod.mk.injEq, List.mem_filterMap]
  constructor
  · rintro (⟨rfl, hword⟩ | ⟨k, -, hk⟩)
    · exact ⟨rfl, hword.symm⟩
    · obtain ⟨unit', -, heq⟩ := Option.map_eq_some_iff.mp hk
      exact absurd (Prod.mk.inj heq).2 (Option.some_ne_none _)
  · exact fun ⟨hj, hword⟩ => .inl ⟨hj, hword.symm⟩

/-- A place is the end of a word, or the rune alone. -/
theorem mem_nextsAt {found : Option (DictUnit W)} :
    (j, found) ∈ nextsAt root max_word_len keys i ↔
      wordAt root max_word_len keys ⟨i, j⟩ = found ∧ (found.isSome ∨ j = i) := by
  cases found with
  | none =>
    rw [mem_nextsAt_none]
    constructor
    · rintro ⟨rfl, hword⟩
      exact ⟨hword, .inr rfl⟩
    · rintro ⟨hword, hsome | rfl⟩
      · cases hsome
      · exact ⟨rfl, hword⟩
  | some unit =>
    rw [mem_nextsAt_some]
    exact ⟨fun hword => ⟨hword, .inl rfl⟩, fun h => h.1⟩

theorem wordAt_bounds (h : wordAt root max_word_len keys ⟨i, j⟩ = some unit) :
    i ≤ j ∧ j < keys.length := by
  obtain ⟨hlt, hlen, -⟩ := wordAt_eq_some.mp h
  exact ⟨hlen.elim Nat.le_of_eq fun hlen => hlen.1.le, hlt⟩

end Places

/-- What is not found may be looked for. -/
theorem filterMap_range_of_le {β : Type} {f : Nat → Option β} {m n : Nat} (hle : m ≤ n)
    (h : ∀ k, m ≤ k → f k = none) : (List.range n).filterMap f = (List.range m).filterMap f := by
  obtain ⟨d, rfl⟩ := Nat.exists_eq_add_of_le hle
  have hnone : ((List.range d).map (m + ·)).filterMap f = [] := by
    rw [List.filterMap_map, List.filterMap_eq_nil_iff]
    exact fun k _ => h (m + k) (Nat.le_add_right m k)
  rw [List.range_add, List.filterMap_append, hnone, List.append_nil]

theorem nextsFrom_drop (root : Trie Rune (DictUnit W)) (max_word_len : Nat) {runes : List RuneStr}
    {i : Nat} {r : RuneStr} (hr : runes[i]? = some r) :
    nextsFrom root max_word_len i r (runes.drop (i + 1)) =
      nextsAt root max_word_len (runes.map RuneStr.rune) i := by
  obtain ⟨hi, rfl⟩ := List.getElem?_eq_some_iff.mp hr
  generalize hkeys : runes.map RuneStr.rune = keys
  have hlength : keys.length = runes.length := by rw [← hkeys, List.length_map]
  have hlen : i < keys.length := by rwa [hlength]
  have hslice : ∀ k, Span.slice keys ⟨i, i + k⟩ =
      runes[i].rune :: ((runes.drop (i + 1)).map RuneStr.rune).take k := by
    intro k
    have hsum : i + k + 1 - i = k + 1 := by omega
    unfold Span.slice
    rw [← hkeys, ← List.map_drop, List.drop_eq_getElem_cons hi, hsum, List.map_cons,
      List.take_succ_cons]
  have hsingle : Span.slice keys ⟨i, i⟩ = [runes[i].rune] := hslice 0
  have hwords : ∀ k, i + 1 + k < keys.length → k < max_word_len - 1 →
      wordAt root max_word_len keys ⟨i, i + 1 + k⟩ =
        root.find? (runes[i].rune :: ((runes.drop (i + 1)).map RuneStr.rune).take (k + 1)) := by
    intro k hk hmax
    have hbetween : i < i + 1 + k ∧ i + 1 + k - i + 1 ≤ max_word_len := by omega
    unfold wordAt
    rw [if_pos ⟨hk, .inr hbetween⟩, Nat.add_assoc, Nat.add_comm 1 k, hslice]
  -- a longer range is longer than the greatest length
  have hlong : ∀ k, max_word_len - 1 ≤ k → wordAt root max_word_len keys ⟨i, i + 1 + k⟩ = none := by
    intro k hk
    unfold wordAt
    rw [if_neg]
    dsimp only
    omega
  have hrange : (List.range (min (max_word_len - 1) (runes.drop (i + 1)).length)).filterMap (fun k =>
        (root.find? (runes[i].rune :: ((runes.drop (i + 1)).map RuneStr.rune).take (k + 1))).map
          fun unit => (i + 1 + k, some unit)) =
      (List.range (min (max_word_len - 1) (keys.length - (i + 1)))).filterMap fun k =>
        (wordAt root max_word_len keys ⟨i, i + 1 + k⟩).map fun unit => (i + 1 + k, some unit) := by
    rw [List.length_drop, ← hlength]
    refine List.filterMap_congr fun k hk => ?_
    have hbounds := Nat.lt_min.mp (List.mem_range.mp hk)
    rw [hwords k (by omega) hbounds.1]
  rw [nextsFrom_eq, hrange, nextsAt, wordAt_single hlen, hsingle]
  congr 1
  rcases Nat.le_total (keys.length - (i + 1)) (max_word_len - 1) with h | h
  · rw [Nat.min_eq_right h]
  · rw [Nat.min_eq_left h]
    refine (filterMap_range_of_le h fun k hk => ?_).symm
    rw [hlong k hk]
    rfl

/-- **What `Find` fills in**: for every rune the words that begin there. -/
theorem findDags_eq [Zero W] (root : Trie Rune (DictUnit W)) (max_word_len : Nat)
    (runes : List RuneStr) :
    findDags root max_word_len runes = runes.zipIdx.map fun p =>
      ⟨p.1, nextsAt root max_word_len (runes.map RuneStr.rune) p.2, none, 0⟩ := by
  have hfrom : ∀ (rest before : List RuneStr), runes = before ++ rest →
      findFrom root max_word_len before.length rest = (rest.zipIdx before.length).map fun p =>
        ⟨p.1, nextsAt root max_word_len (runes.map RuneStr.rune) p.2, none, 0⟩ := by
    intro rest
    induction rest with
    | nil => exact fun _ _ => rfl
    | cons r rest ih =>
      intro before hrunes
      have hrest := ih (before ++ [r]) (by rw [hrunes, List.append_assoc]; rfl)
      have hr : runes[before.length]? = some r := by
        rw [hrunes, List.getElem?_append_right (Nat.le_refl _), Nat.sub_self]
        rfl
      have hdrop : runes.drop (before.length + 1) = rest := by
        rw [hrunes, List.drop_append, List.drop_eq_nil_of_le (Nat.le_succ _), Nat.add_sub_cancel_left]
        rfl
      rw [List.length_append, List.length_singleton] at hrest
      rw [findFrom, List.zipIdx_cons, List.map_cons, hrest, ← nextsFrom_drop root max_word_len hr,
        hdrop]
  exact hfrom runes [] rfl

/-- The ends of a rune's words, from the shortest on. -/
theorem nextsAt_sorted (root : Trie Rune (DictUnit W)) (max_word_len : Nat) (keys : List Rune)
    (i : Nat) : (nextsAt root max_word_len keys i).Pairwise fun a b => a.1 < b.1 := by
  have hend : ∀ {k : Nat} {e : Nat × Option (DictUnit W)},
      (wordAt root max_word_len keys ⟨i, i + 1 + k⟩).map (fun unit => (i + 1 + k, some unit)) = some e →
        e.1 = i + 1 + k := by
    intro k e h
    obtain ⟨_, -, rfl⟩ := Option.map_eq_some_iff.mp h
    rfl
  unfold nextsAt
  refine List.pairwise_cons.mpr ⟨fun e he => ?_, ?_⟩
  · obtain ⟨k, -, hk⟩ := List.mem_filterMap.mp he
    rw [hend hk]
    omega
  · refine List.Pairwise.filterMap _ (fun k k' hlt e he e' he' => ?_) List.pairwise_lt_range
    rw [hend he, hend he']
    omega

/-- **The trie against a search of the list.** In a dictionary of units, `Find` says of the rune `i` that
a word ends at `j` exactly when the last unit with these runes is that word, the rune alone is always
among the places, and they come in order. -/
theorem findDags_createTrie [Zero W] (units : List (DictUnit W)) (max_word_len : Nat)
    (runes : List RuneStr) :
    ∃ nexts : Nat → List (Nat × Option (DictUnit W)),
      findDags (createTrie (units.map DictUnit.word) units) max_word_len runes =
        runes.zipIdx.map (fun p => ⟨p.1, nexts p.2, none, 0⟩) ∧
      ∀ i < runes.length, ((nexts i).Pairwise fun a b => a.1 < b.1) ∧
        ∀ j found, (j, found) ∈ nexts i ↔
          (j = i ∨ i < j ∧ j < runes.length ∧ j - i + 1 ≤ max_word_len ∧ found.isSome) ∧
            found = units.reverse.find? fun unit =>
              unit.word = Span.slice (runes.map RuneStr.rune) ⟨i, j⟩ := by
  refine ⟨_, findDags_eq _ max_word_len runes, fun i hi => ⟨nextsAt_sorted _ _ _ i, ?_⟩⟩
  intro j found
  generalize hkeys : runes.map RuneStr.rune = keys
  have hlength : keys.length = runes.length := by rw [← hkeys, List.length_map]
  have hfind : ∀ {j}, i ≤ j → j < keys.length →
      (createTrie (units.map DictUnit.word) units).find? (Span.slice keys ⟨i, j⟩) =
        units.reverse.find? fun unit => unit.word = Span.slice keys ⟨i, j⟩ := by
    intro j hle hlt
    rw [find?_createTrie, if_neg]
    intro hnil
    have hlen := Span.length_slice (l := keys) (s := ⟨i, j⟩) hlt
    rw [hnil] at hlen
    dsimp only [List.length_nil] at hlen
    omega
  rw [mem_nextsAt]
  constructor
  · rintro ⟨rfl, hplace⟩
    rcases hplace with hsome | rfl
    · obtain ⟨unit, hunit⟩ := Option.isSome_iff_exists.mp hsome
      obtain ⟨hlt, hlen, hword⟩ := wordAt_eq_some.mp hunit
      dsimp only at hlt hlen
      have hle : i ≤ j := hlen.elim Nat.le_of_eq fun h => h.1.le
      refine ⟨hlen.imp Eq.symm fun h => ⟨h.1, hlength ▸ hlt, h.2, hsome⟩, ?_⟩
      rw [hunit, ← hword, hfind hle hlt]
    · have hlt : j < keys.length := by rwa [hlength]
      exact ⟨.inl rfl, (wordAt_single hlt).trans (hfind (Nat.le_refl j) hlt)⟩
  · rintro ⟨hplace, rfl⟩
    rcases hplace with rfl | ⟨hij, hlt, hlen, hsome⟩
    · have hlt : j < keys.length := by rwa [hlength]
      exact ⟨(wordAt_single hlt).trans (hfind (Nat.le_refl j) hlt), .inr rfl⟩
    · rw [← hlength] at hlt
      refine ⟨?_, .inl hsome⟩
      rw [← hfind hij.le hlt]
      exact if_pos ⟨hlt, .inr ⟨hij, hlen⟩⟩

end LightSearch.Cppjieba
