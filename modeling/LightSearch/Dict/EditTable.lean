import LightSearch.Dict.EditDistance
import LightSearch.Lib.Levenshtein

/-!
# The edit distance is the Levenshtein distance

`tableDistance` is `editDistance` with its matrix: a cell that is read must be one of the matrix and
must have been written. `editDistance` keeps a row at a time and computes the same number.

Cell `[i][j]` is the distance of the first `i` characters of the one string from the first `j` of the
other (`Filled`). A match takes the corner and nothing else, which `dist_succ` justifies. The
characters are what the loops cut out (`Reads`), and in valid UTF-8 they are the characters of the
text (`reads_encode`).
-/

set_option autoImplicit false

namespace LightSearch.EditDistance

open Cxx Levenshtein

/-! ## The matrix -/

/-- The matrix `editDist`; a cell that nothing was written to has no value. -/
structure Table where
  rows : Nat
  cols : Nat
  cell : Nat → Nat → Option Nat

namespace Table

/-- `editDist[i][j]`, read. -/
def get (t : Table) (i j : Nat) : Except Fault Nat :=
  if i < t.rows ∧ j < t.cols then
    match t.cell i j with
    | some dist => .ok dist
    | none => .error .danglingIterator
  else .error .danglingIterator

/-- `editDist[i][j]`, written. -/
def set (t : Table) (i j dist : Nat) : Except Fault Table :=
  if i < t.rows ∧ j < t.cols then
    .ok { t with cell := fun i' j' => if i' = i ∧ j' = j then some dist else t.cell i' j' }
  else .error .danglingIterator

theorem get_ok {t : Table} {i j dist : Nat} (hi : i < t.rows) (hj : j < t.cols)
    (h : t.cell i j = some dist) : t.get i j = .ok dist := by
  unfold get
  rw [if_pos ⟨hi, hj⟩, h]

theorem set_ok {t : Table} {i j : Nat} (hi : i < t.rows) (hj : j < t.cols) (dist : Nat) :
    t.set i j dist = .ok { t with cell := fun i' j' =>
      if i' = i ∧ j' = j then some dist else t.cell i' j' } :=
  if_pos ⟨hi, hj⟩

end Table

/-- The inner loop from `distJ` on, over so many characters of the right string. -/
def fillRow (rhs sublhs : Str) (distI distJ rhsIdx : Nat) (t : Table) : Nat → Except Fault Table
  | 0 => .ok t
  | n + 1 => do
    let (subrhs, rhsIdx) ← nextChar rhs rhsIdx
    if sublhs = subrhs then
      let t ← t.set distI distJ (← t.get (distI - 1) (distJ - 1))
      fillRow rhs sublhs distI (distJ + 1) rhsIdx t n
    else
      let left ← t.get distI (distJ - 1)
      let above ← t.get (distI - 1) distJ
      let corner ← t.get (distI - 1) (distJ - 1)
      let t ← t.set distI distJ (tripleMin (left + 1) (above + 1) (corner + 1))
      fillRow rhs sublhs distI (distJ + 1) rhsIdx t n

/-- The outer loop from `distI` on, over so many characters of the left string. -/
def fillRows (lhs rhs : Str) (rhsLen distI lhsIdx : Nat) (t : Table) : Nat → Except Fault Table
  | 0 => .ok t
  | n + 1 => do
    let (sublhs, lhsIdx) ← nextChar lhs lhsIdx
    let t ← fillRow rhs sublhs distI 1 0 t rhsLen
    fillRows lhs rhs rhsLen (distI + 1) lhsIdx t n

/-- `editDistance` with the matrix. -/
def tableDistance (lhs rhs : Str) : Except Fault Nat := do
  let lhsLen ← length lhs
  let rhsLen ← length rhs
  let editDist : Table := ⟨lhsLen + 1, rhsLen + 1, fun _ _ => none⟩
  let editDist ← (List.range (lhsLen + 1)).foldlM (fun t idx => t.set idx 0 idx) editDist
  let editDist ← (List.range (rhsLen + 1)).foldlM (fun t idx => t.set 0 idx idx) editDist
  let editDist ← fillRows lhs rhs rhsLen 1 0 editDist lhsLen
  editDist.get lhsLen rhsLen

/-! ## The characters that are compared -/

/-- The characters that the loops cut out of a string from `idx` on. -/
inductive Reads (str : Str) : Nat → List Str → Prop
  | nil (idx : Nat) : Reads str idx []
  | cons {idx next : Nat} {sub : Str} {chars : List Str} (first : nextChar str idx = .ok (sub, next))
    (rest : Reads str next chars) : Reads str idx (sub :: chars)

/-- In valid UTF-8 a character is cut out as it is, and the next one begins behind it. -/
theorem nextChar_encode (pre : Str) (c : Char) (cs : List Char) :
    nextChar (pre ++ Utf8.encode (c :: cs)) pre.length =
      .ok (String.utf8EncodeChar c, pre.length + c.utf8Size) := by
  obtain ⟨ch, rest, hc, hsize⟩ := encodeChar_nBytes c
  have hfirst : charAt (pre ++ Utf8.encode (c :: cs)) pre.length = .ok ch := by
    unfold charAt
    rw [if_pos (by simp), Utf8.encode_cons, hc]
    simp
  have hsub : substr (pre ++ Utf8.encode (c :: cs)) pre.length (nBytesCode ch) =
      .ok (String.utf8EncodeChar c) := by
    unfold substr
    rw [if_pos (by simp), Utf8.encode_cons, hc, hsize]
    simp
  unfold nextChar
  rw [hfirst, Except.ok_bind]
  dsimp only
  rw [hsub, Except.ok_bind, hsize, ← String.length_utf8EncodeChar c, hc]
  rfl

theorem reads_encode_from (pre : Str) (cs : List Char) :
    Reads (pre ++ Utf8.encode cs) pre.length (cs.map String.utf8EncodeChar) := by
  induction cs generalizing pre with
  | nil => exact Reads.nil _
  | cons c cs ih =>
    have hrest := ih (pre ++ String.utf8EncodeChar c)
    rw [List.append_assoc, List.length_append, String.length_utf8EncodeChar] at hrest
    exact Reads.cons (nextChar_encode pre c cs) hrest

/-- In valid UTF-8 they are the characters of the text. -/
theorem reads_encode (cs : List Char) : Reads (Utf8.encode cs) 0 (cs.map String.utf8EncodeChar) :=
  reads_encode_from [] cs

theorem Reads.next {str : Str} {idx a : Nat} {chars : List Str} (h : Reads str idx (chars.drop a))
    (ha : a < chars.length) :
    ∃ next, nextChar str idx = .ok (chars[a], next) ∧ Reads str next (chars.drop (a + 1)) := by
  rw [List.drop_eq_getElem_cons ha] at h
  cases h with
  | cons first rest => exact ⟨_, first, rest⟩

/-! ## The distances of the beginnings -/

/-- The distance of the first characters of two texts. -/
noncomputable def dist (xs ys : List Str) (i j : Nat) : Nat := levenshtein (xs.take i) (ys.take j)

variable {xs ys : List Str}

@[simp] theorem dist_zero_left {j : Nat} (hj : j ≤ ys.length) : dist xs ys 0 j = j := by
  simp [dist, hj]

@[simp] theorem dist_zero_right {i : Nat} (hi : i ≤ xs.length) : dist xs ys i 0 = i := by
  simp [dist, hi]

theorem tripleMin_succ (a b c : Nat) : tripleMin (a + 1) (b + 1) (c + 1) = min (min a b) c + 1 := by
  unfold tripleMin
  split <;> split <;> omega

/-- **What the loops compute for a cell**: on a match the corner is the least of the three. -/
theorem dist_succ {i j : Nat} (hi : i < xs.length) (hj : j < ys.length) :
    dist xs ys (i + 1) (j + 1) =
      if xs[i] = ys[j] then dist xs ys i j
      else tripleMin (dist xs ys (i + 1) j + 1) (dist xs ys i (j + 1) + 1) (dist xs ys i j + 1) := by
  unfold dist
  rw [tripleMin_succ, List.take_succ_eq_append_getElem hi, List.take_succ_eq_append_getElem hj]
  split
  next heq => rw [heq, levenshtein_concat_self]
  next hne => rw [levenshtein_concat hne]

/-! ## The matrix is filled with them -/

/-- The matrix of two texts: the first row and the first column, the rows before `i`, and row `i`
before `j` have their distances. -/
structure Filled (xs ys : List Str) (i j : Nat) (t : Table) : Prop where
  rows : t.rows = xs.length + 1
  cols : t.cols = ys.length + 1
  cell : ∀ a b, a ≤ xs.length → b ≤ ys.length → a = 0 ∨ b = 0 ∨ a < i ∨ a = i ∧ b < j →
    t.cell a b = some (dist xs ys a b)

theorem Filled.get {i j a b : Nat} {t : Table} (h : Filled xs ys i j t) (ha : a ≤ xs.length)
    (hb : b ≤ ys.length) (hab : a = 0 ∨ b = 0 ∨ a < i ∨ a = i ∧ b < j) :
    t.get a b = .ok (dist xs ys a b) :=
  Table.get_ok (by rw [h.rows]; omega) (by rw [h.cols]; omega) (h.cell a b ha hb hab)

/-- One more cell. -/
theorem Filled.set {i j : Nat} {t : Table} (h : Filled xs ys i j t) (hi : i ≤ xs.length)
    (hj : j ≤ ys.length) :
    ∃ t', t.set i j (dist xs ys i j) = .ok t' ∧ Filled xs ys i (j + 1) t' := by
  refine ⟨_, Table.set_ok (by rw [h.rows]; omega) (by rw [h.cols]; omega) _, h.rows, h.cols, ?_⟩
  intro a b ha hb hab
  dsimp only
  split
  next heq => rw [heq.1, heq.2]
  next hne => exact h.cell a b ha hb (by omega)

/-- A row is complete behind its last cell. -/
theorem Filled.next_row {i : Nat} {t : Table} (h : Filled xs ys i (ys.length + 1) t) :
    Filled xs ys (i + 1) 1 t :=
  ⟨h.rows, h.cols, fun a b ha hb hab => h.cell a b ha hb (by omega)⟩

/-- The inner loop fills its row. -/
theorem fillRow_filled {rhs : Str} {i : Nat} (hi : i < xs.length) {n j rhsIdx : Nat} {t : Table}
    (hn : j + n = ys.length) (hreads : Reads rhs rhsIdx (ys.drop j))
    (h : Filled xs ys (i + 1) (j + 1) t) :
    ∃ t', fillRow rhs xs[i] (i + 1) (j + 1) rhsIdx t n = .ok t' ∧
      Filled xs ys (i + 1) (ys.length + 1) t' := by
  induction n generalizing j rhsIdx t with
  | zero => exact ⟨t, rfl, hn ▸ h⟩
  | succ n ih =>
    have hj : j < ys.length := by omega
    obtain ⟨next, hnext, hrest⟩ := hreads.next hj
    obtain ⟨t', hset, hfilled⟩ := h.set (Nat.succ_le_of_lt hi) (Nat.succ_le_of_lt hj)
    obtain ⟨t'', hfill, hall⟩ := ih (by omega) hrest hfilled
    have hcorner : t.get i j = .ok (dist xs ys i j) := h.get (by omega) (by omega) (by omega)
    have hleft : t.get (i + 1) j = .ok (dist xs ys (i + 1) j) :=
      h.get (by omega) (by omega) (by omega)
    have habove : t.get i (j + 1) = .ok (dist xs ys i (j + 1)) :=
      h.get (by omega) (by omega) (by omega)
    rw [dist_succ hi hj] at hset
    refine ⟨t'', ?_, hall⟩
    unfold fillRow
    rw [hnext, Except.ok_bind]
    simp only [Nat.add_sub_cancel]
    split at hset
    next heq => rw [if_pos heq, hcorner, Except.ok_bind, hset, Except.ok_bind, hfill]
    next hne =>
      rw [if_neg hne, hleft, Except.ok_bind, habove, Except.ok_bind, hcorner, Except.ok_bind, hset,
        Except.ok_bind, hfill]

/-- The outer loop fills all rows. -/
theorem fillRows_filled {lhs rhs : Str} (hrhs : Reads rhs 0 ys) {n i lhsIdx : Nat} {t : Table}
    (hn : i + n = xs.length) (hreads : Reads lhs lhsIdx (xs.drop i))
    (h : Filled xs ys (i + 1) 1 t) :
    ∃ t', fillRows lhs rhs ys.length (i + 1) lhsIdx t n = .ok t' ∧
      Filled xs ys (xs.length + 1) 1 t' := by
  induction n generalizing i lhsIdx t with
  | zero => exact ⟨t, rfl, hn ▸ h⟩
  | succ n ih =>
    have hi : i < xs.length := by omega
    obtain ⟨next, hnext, hrest⟩ := hreads.next hi
    obtain ⟨t', hrow, hfilled⟩ := fillRow_filled hi (Nat.zero_add _) hrhs h
    obtain ⟨t'', hrows, hall⟩ := ih (by omega) hrest hfilled.next_row
    refine ⟨t'', ?_, hall⟩
    unfold fillRows
    rw [hnext, Except.ok_bind]
    dsimp only
    rw [hrow, Except.ok_bind, hrows]

/-- The two loops before them write the first column and the first row. -/
theorem filled_start (xs ys : List Str) :
    ∃ t₁ t₂, (List.range (xs.length + 1)).foldlM (fun (t : Table) idx => t.set idx 0 idx)
        ⟨xs.length + 1, ys.length + 1, fun _ _ => none⟩ = .ok t₁ ∧
      (List.range (ys.length + 1)).foldlM (fun (t : Table) idx => t.set 0 idx idx) t₁ = .ok t₂ ∧
      Filled xs ys 1 1 t₂ := by
  obtain ⟨t₁, hcolumn, hrows, hcols, hfirst⟩ := Except.foldlM_range
    (f := fun (t : Table) idx => t.set idx 0 idx) (n := xs.length + 1)
    (s := ⟨xs.length + 1, ys.length + 1, fun _ _ => none⟩)
    (fun k t => t.rows = xs.length + 1 ∧ t.cols = ys.length + 1 ∧ ∀ a < k, t.cell a 0 = some a)
    (fun k t hk h => by
      obtain ⟨hrows, hcols, hfirst⟩ := h
      refine ⟨_, Table.set_ok (by omega) (by omega) k, hrows, hcols, fun a ha => ?_⟩
      by_cases hak : a = k
      · simp [hak]
      · simpa [hak] using hfirst a (by omega))
    ⟨rfl, rfl, fun a ha => absurd ha (Nat.not_lt_zero a)⟩
  obtain ⟨t₂, hrow, hrows, hcols, hfirst, hsecond⟩ := Except.foldlM_range
    (f := fun (t : Table) idx => t.set 0 idx idx) (n := ys.length + 1) (s := t₁)
    (fun k t => t.rows = xs.length + 1 ∧ t.cols = ys.length + 1 ∧
      (∀ a < xs.length + 1, t.cell a 0 = some a) ∧ ∀ b < k, t.cell 0 b = some b)
    (fun k t hk h => by
      obtain ⟨hrows, hcols, hfirst, hsecond⟩ := h
      refine ⟨_, Table.set_ok (by omega) (by omega) k, hrows, hcols, fun a ha => ?_, fun b hb => ?_⟩
      · by_cases ha0 : a = 0 ∧ 0 = k
        · simp [ha0]
        · simpa [ha0] using hfirst a ha
      · by_cases hbk : b = k
        · simp [hbk]
        · simpa [hbk] using hsecond b (by omega))
    ⟨hrows, hcols, hfirst, fun b hb => absurd hb (Nat.not_lt_zero b)⟩
  refine ⟨t₁, t₂, hcolumn, hrow, hrows, hcols, fun a b ha hb hab => ?_⟩
  rcases Nat.eq_zero_or_pos a with rfl | hpos
  · rw [hsecond b (by omega), dist_zero_left hb]
  · obtain rfl : b = 0 := by omega
    rw [hfirst a (by omega), dist_zero_right ha]

/-- **With the matrix**, every cell is there when it is read or written, and the last is the
distance. -/
theorem tableDistance_reads {lhs rhs : Str} (hlhs : length lhs = .ok xs.length)
    (hrhs : length rhs = .ok ys.length) (hreads : Reads lhs 0 xs) (hreads' : Reads rhs 0 ys) :
    tableDistance lhs rhs = .ok (levenshtein xs ys) := by
  obtain ⟨t₁, t₂, hcolumn, hrow, hstart⟩ := filled_start xs ys
  obtain ⟨t₃, hrows, hall⟩ := fillRows_filled hreads' (Nat.zero_add _) hreads hstart
  have hlast : t₃.get xs.length ys.length = .ok (dist xs ys xs.length ys.length) :=
    hall.get (Nat.le_refl _) (Nat.le_refl _) (by omega)
  unfold tableDistance
  rw [hlhs, Except.ok_bind, hrhs, Except.ok_bind]
  dsimp only
  rw [hcolumn, Except.ok_bind, hrow, Except.ok_bind, hrows, Except.ok_bind, hlast, dist,
    List.take_length, List.take_length]

/-! ## A row at a time -/

/-- The inner loop computes its row from the row above it. -/
theorem rowFrom_dist {rhs : Str} {i : Nat} (hi : i < xs.length) {n j rhsIdx : Nat}
    (hn : j + n = ys.length) (hreads : Reads rhs rhsIdx (ys.drop j)) :
    rowFrom rhs xs[i] (dist xs ys (i + 1) j) (dist xs ys i j) rhsIdx
        ((List.range' (j + 1) n).map (dist xs ys i)) =
      .ok ((List.range' (j + 1) n).map (dist xs ys (i + 1))) := by
  induction n generalizing j rhsIdx with
  | zero => rfl
  | succ n ih =>
    have hj : j < ys.length := by omega
    obtain ⟨next, hnext, hrest⟩ := hreads.next hj
    rw [List.range'_succ, List.map_cons, List.map_cons]
    unfold rowFrom
    rw [hnext, Except.ok_bind]
    dsimp only
    rw [← dist_succ hi hj, ih (by omega) hrest]
    rfl

/-- The outer loop ends with the last row. -/
theorem rowsFrom_dist {lhs rhs : Str} (hrhs : Reads rhs 0 ys) {n i lhsIdx : Nat}
    (hn : i + n = xs.length) (hreads : Reads lhs lhsIdx (xs.drop i)) :
    rowsFrom lhs rhs (i + 1) lhsIdx i ((List.range' 1 ys.length).map (dist xs ys i)) n =
      .ok (xs.length, (List.range' 1 ys.length).map (dist xs ys xs.length)) := by
  induction n generalizing i lhsIdx with
  | zero =>
    obtain rfl : i = xs.length := hn
    rfl
  | succ n ih =>
    have hi : i < xs.length := by omega
    obtain ⟨next, hnext, hrest⟩ := hreads.next hi
    have hrow := rowFrom_dist hi (Nat.zero_add ys.length) hrhs
    rw [dist_zero_right (Nat.succ_le_of_lt hi), dist_zero_right (Nat.le_of_lt hi)] at hrow
    unfold rowsFrom
    rw [hnext, Except.ok_bind]
    dsimp only
    rw [hrow, Except.ok_bind, ih (by omega) hrest]

/-- **Row by row**, the last number is the distance. -/
theorem editDistance_reads {lhs rhs : Str} (hlhs : length lhs = .ok xs.length)
    (hrhs : length rhs = .ok ys.length) (hreads : Reads lhs 0 xs) (hreads' : Reads rhs 0 ys) :
    editDistance lhs rhs = .ok (levenshtein xs ys) := by
  have hstart : (List.range ys.length).map (· + 1) = (List.range' 1 ys.length).map (dist xs ys 0) := by
    rw [List.range'_eq_map_range, List.map_map]
    refine List.map_congr_left fun j hj => ?_
    have hlt : j < ys.length := List.mem_range.mp hj
    rw [Function.comp_apply, dist_zero_left (by omega), Nat.add_comm]
  have hlast : (xs.length :: (List.range' 1 ys.length).map (dist xs ys xs.length)) =
      (List.range' 0 (ys.length + 1)).map (dist xs ys xs.length) := by
    rw [List.range'_succ, List.map_cons, dist_zero_right (Nat.le_refl _)]
  unfold editDistance
  rw [hlhs, Except.ok_bind, hrhs, Except.ok_bind, hstart,
    rowsFrom_dist hreads' (Nat.zero_add _) hreads, Except.ok_bind]
  dsimp only
  simp only [hlast, List.getLast_map, List.getLast_range']
  simp [dist]

theorem length_encode_map (cs : List Char) :
    length (Utf8.encode cs) = .ok (cs.map String.utf8EncodeChar).length := by
  rw [length_encode, List.length_map]

theorem levenshtein_encodeChar (cs ds : List Char) :
    levenshtein (cs.map String.utf8EncodeChar) (ds.map String.utf8EncodeChar) = levenshtein cs ds :=
  levenshtein_map Utf8.encodeChar_injective cs ds

/-- On two texts in UTF-8 the loops compute their distance. -/
theorem editDistance_encode (cs ds : List Char) :
    editDistance (Utf8.encode cs) (Utf8.encode ds) = .ok (levenshtein cs ds) := by
  rw [← levenshtein_encodeChar]
  exact editDistance_reads (length_encode_map cs) (length_encode_map ds) (reads_encode cs)
    (reads_encode ds)

/-- **Edit distance correctness.** For two texts in UTF-8 the program computes their Levenshtein
distance, and no index on the way is out of range. -/
theorem editDistance_levenshtein (cs ds : List Char) :
    tableDistance (Utf8.encode cs) (Utf8.encode ds) = .ok (levenshtein cs ds) ∧
      editDistance (Utf8.encode cs) (Utf8.encode ds) = .ok (levenshtein cs ds) := by
  refine ⟨?_, editDistance_encode cs ds⟩
  rw [← levenshtein_encodeChar]
  exact tableDistance_reads (length_encode_map cs) (length_encode_map ds) (reads_encode cs)
    (reads_encode ds)

end LightSearch.EditDistance
