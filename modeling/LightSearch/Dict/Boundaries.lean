import LightSearch.Dict.EditTable
import LightSearch.Dict.Recommender

/-!
# The places of the characters

Three decoders go through a text by the first bytes of its characters: `nBytesCode` counts the ones at
the top of the byte, and the two `cutString` compare it with thresholds. Each loop is given here a
second time with the places where it reads a first byte, and without them it is the loop it was
(`lengthTraced_fst`, `editTraced_fst`, `cutTraced_fst`).

In valid UTF-8 all of them read at the same places, those where the characters begin, and stop at the
end (`decoders_agree`).
-/

set_option autoImplicit false

namespace LightSearch

open Cxx

/-- `ChRecommender::cutString`. -/
def ChRecommender.cutString (chstr : Str) : Except Fault (List Str) := LightSearch.cutString chstr

/-- `MixedRecommender::cutString`, the same loop once more. -/
def MixedRecommender.cutString (chstr : Str) : Except Fault (List Str) := LightSearch.cutString chstr

/-! ## The loops with their places -/

/-- The loop of `cutString`, with the values of `i`. -/
def cutTraced : Nat → Nat → Str → Except Fault (List Str × List Nat)
  | 0, _, [] => .ok ([], [])
  | _ + 1, _, [] => .error .outOfRange
  | 0, i, byte :: chstr => do
    let (output, places) ← cutTraced (charLen byte - 1) (i + 1) chstr
    .ok ((byte :: chstr).take (charLen byte) :: output, i :: places)
  | len + 1, i, _ :: chstr => cutTraced len (i + 1) chstr

theorem cutTraced_fst (len i : Nat) (chstr : Str) :
    Prod.fst <$> cutTraced len i chstr = cutFrom len chstr := by
  induction chstr generalizing len i with
  | nil => cases len <;> rfl
  | cons byte chstr ih =>
    cases len with
    | zero =>
      rw [cutTraced, cutFrom, ← ih (charLen byte - 1) (i + 1)]
      cases cutTraced (charLen byte - 1) (i + 1) chstr <;> rfl
    | succ len => exact ih len (i + 1)

namespace EditDistance

/-- The loop of `length`, with the values of `idx`. -/
def lengthTraced : Nat → Nat → Str → Except Fault (Nat × List Nat)
  | 0, _, [] => .ok (0, [])
  | _ + 1, _, [] => .error .danglingIterator
  | 0, idx, ch :: str => do
    let (ilen, places) ← lengthTraced (nBytesCode ch - 1) (idx + 1) str
    .ok (ilen + 1, idx :: places)
  | skip + 1, idx, _ :: str => lengthTraced skip (idx + 1) str

theorem lengthTraced_fst (skip idx : Nat) (str : Str) :
    Prod.fst <$> lengthTraced skip idx str = lengthFrom skip str := by
  induction str generalizing skip idx with
  | nil => cases skip <;> rfl
  | cons ch str ih =>
    cases skip with
    | zero =>
      rw [lengthTraced, lengthFrom, ← ih (nBytesCode ch - 1) (idx + 1)]
      cases lengthTraced (nBytesCode ch - 1) (idx + 1) str <;> rfl
    | succ skip => exact ih skip (idx + 1)

/-- The inner loop of `editDistance`, with the values of `rhs_idx`. -/
def rowTraced (rhs sublhs : Str) (left corner : Nat) (rhsIdx : Nat) :
    List Nat → Except Fault (List Nat × List Nat)
  | [] => .ok ([], [])
  | above :: rest => do
    let (subrhs, next) ← nextChar rhs rhsIdx
    let dist := if sublhs = subrhs then corner else tripleMin (left + 1) (above + 1) (corner + 1)
    let (row, places) ← rowTraced rhs sublhs dist above next rest
    .ok (dist :: row, rhsIdx :: places)

/-- The outer loop, with the values of `lhs_idx`, and those of `rhs_idx` in each row. -/
def rowsTraced (lhs rhs : Str) (distI lhsIdx : Nat) (first : Nat) (above : List Nat) :
    Nat → Except Fault ((Nat × List Nat) × List Nat × List (List Nat))
  | 0 => .ok ((first, above), [], [])
  | n + 1 => do
    let (sublhs, next) ← nextChar lhs lhsIdx
    let (row, rhsPlaces) ← rowTraced rhs sublhs distI first 0 above
    let (last, lhsPlaces, rows) ← rowsTraced lhs rhs (distI + 1) next distI row n
    .ok (last, lhsIdx :: lhsPlaces, rhsPlaces :: rows)

/-- `editDistance`, with the places of its two loops. -/
def editTraced (lhs rhs : Str) : Except Fault (Nat × List Nat × List (List Nat)) := do
  let lhsLen ← length lhs
  let rhsLen ← length rhs
  let ((first, row), lhsPlaces, rows) ←
    rowsTraced lhs rhs 1 0 0 ((List.range rhsLen).map (· + 1)) lhsLen
  .ok ((first :: row).getLast (List.cons_ne_nil _ _), lhsPlaces, rows)

theorem rowTraced_fst (rhs sublhs : Str) (left corner rhsIdx : Nat) (above : List Nat) :
    Prod.fst <$> rowTraced rhs sublhs left corner rhsIdx above =
      rowFrom rhs sublhs left corner rhsIdx above := by
  induction above generalizing left corner rhsIdx with
  | nil => rfl
  | cons a above ih =>
    rw [rowTraced, rowFrom]
    cases nextChar rhs rhsIdx with
    | error e => rfl
    | ok read =>
      obtain ⟨subrhs, next⟩ := read
      dsimp only [Except.ok_bind]
      rw [← ih]
      cases rowTraced rhs sublhs _ a next above <;> rfl

theorem rowsTraced_fst (lhs rhs : Str) (distI lhsIdx first : Nat) (above : List Nat) (n : Nat) :
    Prod.fst <$> rowsTraced lhs rhs distI lhsIdx first above n =
      rowsFrom lhs rhs distI lhsIdx first above n := by
  induction n generalizing distI lhsIdx first above with
  | zero => rfl
  | succ n ih =>
    rw [rowsTraced, rowsFrom]
    cases nextChar lhs lhsIdx with
    | error e => rfl
    | ok read =>
      obtain ⟨sublhs, next⟩ := read
      dsimp only [Except.ok_bind]
      rw [← rowTraced_fst]
      cases rowTraced rhs sublhs distI first 0 above with
      | error e => rfl
      | ok traced =>
        obtain ⟨row, places⟩ := traced
        have hrest := ih (distI + 1) next distI row
        simp only [Except.ok_bind, Functor.map, Except.map] at hrest ⊢
        rw [← hrest]
        cases rowsTraced lhs rhs (distI + 1) next distI row n <;> rfl

theorem editTraced_fst (lhs rhs : Str) : Prod.fst <$> editTraced lhs rhs = editDistance lhs rhs := by
  unfold editTraced editDistance
  cases length lhs with
  | error e => rfl
  | ok lhsLen =>
    cases length rhs with
    | error e => rfl
    | ok rhsLen =>
      simp only [Except.ok_bind]
      rw [← rowsTraced_fst]
      cases rowsTraced lhs rhs 1 0 0 ((List.range rhsLen).map (· + 1)) lhsLen <;> rfl

/-! ## In valid UTF-8 -/

/-- The places behind a character are those of the rest, moved by its size. -/
theorem starts_cons_map (c : Char) (cs : List Char) (i : Nat) :
    (Utf8.starts (c :: cs)).map (· + i) = i :: (Utf8.starts cs).map (· + (i + c.utf8Size)) := by
  simp only [Utf8.starts, List.map_cons, List.map_map, Nat.zero_add, List.cons.injEq, true_and]
  exact List.map_congr_left fun j _ => by rw [Function.comp_apply]; omega

theorem lengthTraced_skip (tail : Str) (idx : Nat) (str : Str) :
    lengthTraced tail.length idx (tail ++ str) = lengthTraced 0 (idx + tail.length) str := by
  induction tail generalizing idx with
  | nil => rfl
  | cons ch tail ih =>
    rw [List.length_cons, List.cons_append, lengthTraced, ih]
    congr 1
    omega

/-- `length` reads where the characters begin, and counts them. -/
theorem lengthTraced_encode (cs : List Char) (idx : Nat) :
    lengthTraced 0 idx (Utf8.encode cs) = .ok (cs.length, (Utf8.starts cs).map (· + idx)) := by
  induction cs generalizing idx with
  | nil => rfl
  | cons c cs ih =>
    obtain ⟨ch, rest, hc, hsize⟩ := encodeChar_nBytes c
    have hlen : c.utf8Size = rest.length + 1 := by
      rw [← String.length_utf8EncodeChar c, hc, List.length_cons]
    have hnext : idx + 1 + rest.length = idx + c.utf8Size := by omega
    rw [Utf8.encode_cons, hc, List.cons_append, lengthTraced, hsize, Nat.add_sub_cancel,
      lengthTraced_skip, hnext, ih, Except.ok_bind, starts_cons_map]
    rfl

/-- The inner loop reads where the characters of the right text begin. -/
theorem rowTraced_encode (pre : Str) (ds : List Char) (sublhs : Str) (left corner : Nat)
    {above : List Nat} (h : above.length = ds.length) :
    ∃ row, rowTraced (pre ++ Utf8.encode ds) sublhs left corner pre.length above =
      .ok (row, (Utf8.starts ds).map (· + pre.length)) ∧ row.length = ds.length := by
  induction ds generalizing pre left corner above with
  | nil =>
    obtain rfl := List.length_eq_zero_iff.mp h
    exact ⟨[], rfl, rfl⟩
  | cons d ds ih =>
    cases above with
    | nil => cases h
    | cons a above =>
      have hrest := ih (pre ++ String.utf8EncodeChar d)
      rw [List.append_assoc, List.length_append, String.length_utf8EncodeChar] at hrest
      let dist := if sublhs = String.utf8EncodeChar d then corner
        else tripleMin (left + 1) (a + 1) (corner + 1)
      obtain ⟨row, hrow, hlen⟩ := hrest dist a (Nat.succ.inj h)
      refine ⟨dist :: row, ?_, congrArg Nat.succ hlen⟩
      rw [rowTraced, nextChar_encode]
      dsimp only [Except.ok_bind]
      rw [← Utf8.encode_cons] at hrow
      rw [hrow, starts_cons_map]
      rfl

/-- The outer loop reads where the characters of the left text begin, and in each row the inner loop
reads where those of the right text do. -/
theorem rowsTraced_encode (pre : Str) (cs ds : List Char) (distI first : Nat) {above : List Nat}
    (h : above.length = ds.length) :
    ∃ last, rowsTraced (pre ++ Utf8.encode cs) (Utf8.encode ds) distI pre.length first above
        cs.length =
      .ok (last, (Utf8.starts cs).map (· + pre.length),
        List.replicate cs.length (Utf8.starts ds)) := by
  induction cs generalizing pre distI first above with
  | nil => exact ⟨_, rfl⟩
  | cons c cs ih =>
    obtain ⟨row, hrow, hlen⟩ := rowTraced_encode [] ds (String.utf8EncodeChar c) distI first h
    have hstart : (Utf8.starts ds).map (· + ([] : Str).length) = Utf8.starts ds := List.map_id _
    rw [hstart] at hrow
    have hrest := ih (pre ++ String.utf8EncodeChar c) (distI + 1) distI hlen
    rw [List.append_assoc, List.length_append, String.length_utf8EncodeChar] at hrest
    obtain ⟨last, hlast⟩ := hrest
    refine ⟨last, ?_⟩
    rw [List.length_cons, rowsTraced, nextChar_encode]
    dsimp only [Except.ok_bind]
    rw [← Utf8.encode_cons] at hlast
    have hrow' : rowTraced (Utf8.encode ds) (String.utf8EncodeChar c) distI first 0 above =
        .ok (row, Utf8.starts ds) := hrow
    rw [hrow']
    dsimp only [Except.ok_bind]
    rw [hlast, starts_cons_map]
    rfl

theorem editTraced_encode (cs ds : List Char) :
    ∃ dist, editTraced (Utf8.encode cs) (Utf8.encode ds) =
      .ok (dist, Utf8.starts cs, List.replicate cs.length (Utf8.starts ds)) := by
  have hrange : ((List.range ds.length).map (· + 1)).length = ds.length := by
    rw [List.length_map, List.length_range]
  obtain ⟨last, hlast⟩ := rowsTraced_encode [] cs ds 1 0 hrange
  have hstart : (Utf8.starts cs).map (· + ([] : Str).length) = Utf8.starts cs := List.map_id _
  rw [hstart] at hlast
  have hrows : rowsTraced (Utf8.encode cs) (Utf8.encode ds) 1 0 0
      ((List.range ds.length).map (· + 1)) cs.length =
      .ok (last, Utf8.starts cs, List.replicate cs.length (Utf8.starts ds)) := hlast
  unfold editTraced
  rw [length_encode, Except.ok_bind, length_encode, Except.ok_bind, hrows]
  exact ⟨_, rfl⟩

end EditDistance

theorem cutTraced_skip (tail : Str) (i : Nat) (chstr : Str) :
    cutTraced tail.length i (tail ++ chstr) = cutTraced 0 (i + tail.length) chstr := by
  induction tail generalizing i with
  | nil => rfl
  | cons ch tail ih =>
    rw [List.length_cons, List.cons_append, cutTraced, ih]
    congr 1
    omega

/-- `cutString` reads where the characters begin, and cuts them out. -/
theorem cutTraced_encode (cs : List Char) (i : Nat) :
    cutTraced 0 i (Utf8.encode cs) =
      .ok (cs.map String.utf8EncodeChar, (Utf8.starts cs).map (· + i)) := by
  induction cs generalizing i with
  | nil => rfl
  | cons c cs ih =>
    obtain ⟨lead, tail, hc, hlead, hsize, -⟩ := Utf8.encodeChar_shape c
    have hlen : charLen lead = tail.length + 1 := by
      rw [charLen_lead c.utf8Size_eq hlead, hsize]
    have hnext : i + 1 + tail.length = i + c.utf8Size := by omega
    rw [Utf8.encode_cons, hc, List.cons_append, cutTraced, hlen, Nat.add_sub_cancel, cutTraced_skip,
      hnext, ih, EditDistance.starts_cons_map, List.map_cons, hc]
    simp

/-- The order of a `set<string>` is that of the strings. -/
theorem lt_of_compare {s t : Str} (h : compare s t = .lt) : s < t := by
  induction s generalizing t with
  | nil =>
    cases t with
    | nil => cases h
    | cons b t => exact List.nil_lt_cons b t
  | cons a s ih =>
    cases t with
    | nil => cases h
    | cons b t =>
      have hthen : (compare a b).then (compare s t) = .lt := by
        rw [← h]
        exact (List.compareLex_cons_cons).symm
      apply List.cons_lt_cons_iff.mpr
      rcases Ordering.then_eq_lt.mp hthen with hlt | ⟨heq, hlt⟩
      · exact .inl (Std.compare_eq_lt.mp hlt)
      · exact .inr ⟨Std.LawfulEqCmp.eq_of_compare heq, ih hlt⟩

/-- The characters of a text, sorted and without repetitions. -/
theorem cutString_sorted (cs : List Char) :
    ∃ chars, cutString (Utf8.encode cs) = .ok chars ∧ chars.Pairwise (· < ·) ∧ chars.Nodup ∧
      ∀ str, str ∈ chars ↔ ∃ c ∈ cs, String.utf8EncodeChar c = str := by
  obtain ⟨chars, hcut, hmem⟩ := cutString_encode cs
  have hordered : chars.Pairwise (· < ·) := by
    unfold cutString at hcut
    obtain ⟨output, -, hlist⟩ := Except.bind_eq_ok.mp hcut
    obtain rfl := Except.ok.inj hlist
    exact Std.TreeSet.ordered_toList.imp fun {_ _} h => lt_of_compare h
  refine ⟨chars, hcut, hordered, hordered.imp fun {a b} hlt heq => ?_, hmem⟩
  rw [heq] at hlt
  exact List.lt_irrefl b hlt

/-- **The decoders agree.** In a text in UTF-8 the loops of `length`, `editDistance` (for either
argument, in every row) and both `cutString` read first bytes at the same places, the boundaries of
the text but its end, where they stop. `length` is the number of characters, and both `cutString`
return the characters, sorted and each once. -/
theorem decoders_agree (cs : List Char) :
    ∃ places, (∀ i, Utf8.Boundary cs i ↔ i ∈ places ∨ i = (Utf8.encode cs).length) ∧
      places.Pairwise (· < ·) ∧
      EditDistance.lengthTraced 0 0 (Utf8.encode cs) = .ok (cs.length, places) ∧
      (∀ ds, ∃ dist rhsPlaces, EditDistance.editTraced (Utf8.encode cs) (Utf8.encode ds) =
        .ok (dist, places, rhsPlaces)) ∧
      (∀ ds, ∃ dist lhsPlaces, EditDistance.editTraced (Utf8.encode ds) (Utf8.encode cs) =
        .ok (dist, lhsPlaces, List.replicate ds.length places)) ∧
      (∃ output, cutTraced 0 0 (Utf8.encode cs) = .ok (output, places)) ∧
      EditDistance.length (Utf8.encode cs) = .ok cs.length ∧
      ∃ chars, ChRecommender.cutString (Utf8.encode cs) = .ok chars ∧
        MixedRecommender.cutString (Utf8.encode cs) = .ok chars ∧
        chars.Pairwise (· < ·) ∧ chars.Nodup ∧
        ∀ str, str ∈ chars ↔ ∃ c ∈ cs, String.utf8EncodeChar c = str := by
  have hzero : (Utf8.starts cs).map (· + 0) = Utf8.starts cs := List.map_id _
  refine ⟨Utf8.starts cs, fun i => Utf8.boundary_iff_starts, Utf8.starts_ordered cs, ?_, fun ds => ?_,
    fun ds => ?_, ?_, EditDistance.length_encode cs, ?_⟩
  · rw [EditDistance.lengthTraced_encode, hzero]
  · obtain ⟨dist, hdist⟩ := EditDistance.editTraced_encode cs ds
    exact ⟨dist, _, hdist⟩
  · obtain ⟨dist, hdist⟩ := EditDistance.editTraced_encode ds cs
    exact ⟨dist, _, hdist⟩
  · refine ⟨cs.map String.utf8EncodeChar, ?_⟩
    rw [cutTraced_encode, hzero]
  · obtain ⟨chars, hcut, hrest⟩ := cutString_sorted cs
    exact ⟨chars, hcut, hcut, hrest⟩

end LightSearch
