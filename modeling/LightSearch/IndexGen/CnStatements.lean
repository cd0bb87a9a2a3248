import LightSearch.IndexGen.CnIndex

/-!
# The statements of the Chinese index

`buildIndexcn` builds the statement of a key once and edits it: it appends an id and executes, takes
the end off again, and deletes the first occurrence of the id's digits. That is the occurrence at the
end unless the key has the digits too (`indexcnFrom_step`). Then they are deleted from the key, and
every further statement of the key is wrong.

The table has the rows that these statements insert (`insertedRows`): those of the index when no key is
disturbed (`insertedRows_eq`), and rows of other keys and numbers when one is.
-/

set_option autoImplicit false

namespace LightSearch

open Cxx

/-- `sql.replace(pos, len, "")` with what `find` returned, which may be `npos`. -/
def eraseAt (sql : Str) (pos : Option Nat) (len : Nat) : Except Fault Str :=
  match pos with
  | some pos => .ok (sql.take pos ++ sql.drop (pos + len))
  | none => .error .outOfRange

/-- The inner loop: the statements that are executed for the ids. -/
def indexcnFrom (sql : Str) : List Nat → Except Fault (List Str)
  | [] => .ok []
  | id :: ids => do
    let substr := decimal id
    let sql := sql ++ substr ++ lit ");"
    let statement := sql
    let sql := sql.dropLast.dropLast
    let pos := find substr sql
    let sql ← eraseAt sql pos substr.length
    .ok (statement :: (← indexcnFrom sql ids))

/-- The statement of a key before its ids. -/
def indexcnHead (key : Str) : Str :=
  lit "INSERT INTO indexCn (word, indexId) VALUES ('" ++ key ++ lit "',"

/-- `buildIndexcn`: the statements that are executed. -/
def buildIndexcn (indexcn : IndexCn) : Except Fault (List Str) := do
  let statements ← indexcn.toList.mapM fun elem => indexcnFrom (indexcnHead elem.1) elem.2.toList
  .ok statements.flatten

/-- The statement that inserts a row. -/
def IndexRow.cnInsert (row : IndexRow) : Str :=
  lit "INSERT INTO indexCn (word, indexId) VALUES ('" ++ row.character ++ lit "'," ++
    decimal row.indexId ++ lit ");"

/-- A statement up to its key. -/
def beforeId : Str := lit "INSERT INTO indexCn (word, indexId) VALUES ('"

/-- `doUpdateQuery` on a statement of `buildIndexcn`: the row that comes into the table, if one does. The
key is what the literal denotes, and the number is that of the digits behind it. The columns take every
key and number. -/
def IndexRow.inserted (sql : Str) : Option IndexRow :=
  let text := cstr sql
  if beforeId.isPrefixOf text then
    match Sql.literal (text.drop beforeId.length) with
    | some (key, 44 :: rest) =>
      let digits := rest.takeWhile isdigit
      if digits ≠ [] ∧ rest.dropWhile isdigit = lit ");" then some ⟨key, digitsValue digits⟩ else none
    | _ => none
  else none

/-- `indexCn` after the statements. -/
def insertedRows (statements : List Str) : List IndexRow := statements.filterMap IndexRow.inserted

/-! ## One round -/

theorem indexcnHead_eq (key : Str) : indexcnHead key = beforeId ++ (key ++ 39 :: [44]) := by
  have hclose : lit "'," = [39, 44] := by decide
  rw [indexcnHead, hclose, List.append_assoc]
  rfl

theorem decimal_ne_nil (n : Nat) : decimal n ≠ [] := by
  intro h
  exact Nat.toDigits_ne_nil (List.map_eq_nil_iff.mp h)

/-- There are no digits before the key. -/
theorem find_beforeId (n : Nat) (rest : Str) :
    find (decimal n) (beforeId ++ rest) = (find (decimal n) rest).map (· + beforeId.length) := by
  have hsplit : beforeId = beforeId.dropLast ++ [39] := by decide
  have hclean : beforeId.dropLast.all (fun ch => !isdigit ch) = true := by decide
  have hnone : find (decimal n) beforeId.dropLast = none := by
    rw [find_eq_none_iff]
    intro hinside
    obtain ⟨ch, hch⟩ := List.exists_mem_of_ne_nil _ (decimal_ne_nil n)
    have hdigit := List.all_eq_true.mp hclean ch (hinside.subset hch)
    rw [isdigit_of_mem_decimal hch] at hdigit
    cases hdigit
  have hquote : (39 : UInt8) ∉ decimal n := not_mem_decimal (by decide)
  have hfind := find_append_cons (decimal_ne_nil n) hquote beforeId.dropLast rest
  rw [hnone] at hfind
  rw [hsplit, List.append_assoc, List.singleton_append, hfind]
  rfl

/-- Where the digits of an id are found: in the key, or behind it. -/
theorem find_head_id (key : Str) (id : Nat) :
    find (decimal id) (indexcnHead key ++ decimal id) =
      some (match find (decimal id) key with
        | some pos => beforeId.length + pos
        | none => (indexcnHead key).length) := by
  have hself : find (decimal id) (decimal id) = some 0 := by
    cases h : decimal id with
    | nil => exact absurd h (decimal_ne_nil id)
    | cons ch rest => simp [find]
  have hcomma := find_append_cons (decimal_ne_nil id)
    (not_mem_decimal (by decide : isdigit 44 = false)) [] (decimal id)
  have hempty : find (decimal id) [] = none := if_neg (decimal_ne_nil id)
  rw [hempty, hself] at hcomma
  have hquote := find_append_cons (decimal_ne_nil id)
    (not_mem_decimal (by decide : isdigit 39 = false)) key (44 :: decimal id)
  rw [← List.nil_append (44 :: decimal id), hcomma] at hquote
  rw [indexcnHead_eq, List.append_assoc, List.append_assoc, List.cons_append, List.singleton_append,
    find_beforeId, ← List.nil_append (44 :: decimal id), hquote]
  cases find (decimal id) key with
  | some pos => simp [Nat.add_comm]
  | none =>
    simp
    omega

/-- **What is left after a round**: the beginning of the statement, when the key has not the digits
of the id. -/
theorem eraseAt_head (key : Str) (id : Nat) :
    eraseAt (indexcnHead key ++ decimal id) (find (decimal id) (indexcnHead key ++ decimal id))
        (decimal id).length =
      .ok (match find (decimal id) key with
        | some pos => indexcnHead (key.take pos ++ key.drop (pos + (decimal id).length)) ++ decimal id
        | none => indexcnHead key) := by
  rw [find_head_id, eraseAt]
  cases hfind : find (decimal id) key with
  | some pos =>
    have hle := (find_front hfind).length_le
    have hpos := find_le hfind
    rw [List.length_drop] at hle
    have hfront : (pos + (decimal id).length) - key.length = 0 := by omega
    simp only [indexcnHead_eq, List.append_assoc]
    rw [List.take_length_add_append, Nat.add_assoc, List.drop_length_add_append,
      List.take_append_of_le_length hpos, List.drop_append, hfront, List.drop_zero]
    simp
  | none => simp

/-- One round of the inner loop. -/
theorem indexcnFrom_cons (sql : Str) (id : Nat) (ids : List Nat) :
    indexcnFrom sql (id :: ids) =
      eraseAt (sql ++ decimal id) (find (decimal id) (sql ++ decimal id)) (decimal id).length >>=
        fun next => indexcnFrom next ids >>= fun rest =>
          .ok ((sql ++ decimal id ++ lit ");") :: rest) := by
  have hend : (sql ++ decimal id ++ lit ");").dropLast.dropLast = sql ++ decimal id := by
    have hlit : lit ");" = [41] ++ [59] := by decide
    rw [hlit, ← List.append_assoc, List.dropLast_concat, List.dropLast_concat]
  rw [indexcnFrom]
  simp only [hend]

theorem cnInsert_eq (key : Str) (id : Nat) :
    (⟨key, id⟩ : IndexRow).cnInsert = indexcnHead key ++ decimal id ++ lit ");" := by
  simp [IndexRow.cnInsert, indexcnHead]

/-! ## One key -/

theorem sorted_toList (ids : Std.TreeSet Nat) : ids.toList.Pairwise (· < ·) :=
  Std.TreeSet.ordered_toList.imp fun {_ _} h => Nat.compare_eq_lt.mp h

/-- The statements of a key that none of its ids but the last disturbs. -/
theorem indexcnFrom_of_apart {key : Str} {ids : List Nat} (hsorted : ids.Pairwise (· < ·))
    (h : ∀ i ∈ ids, ∀ j ∈ ids, i < j → ¬ decimal i <:+: key) :
    indexcnFrom (indexcnHead key) ids = .ok (ids.map fun id => (⟨key, id⟩ : IndexRow).cnInsert) := by
  induction ids with
  | nil => rfl
  | cons id ids ih =>
    obtain ⟨hfirst, hrest⟩ := List.pairwise_cons.mp hsorted
    have hnext := ih hrest fun i hi j hj =>
      h i (List.mem_cons_of_mem _ hi) j (List.mem_cons_of_mem _ hj)
    rw [indexcnFrom_cons, eraseAt_head, Except.ok_bind, List.map_cons, cnInsert_eq]
    cases ids with
    | nil => rfl
    | cons id' ids =>
      have hnone : find (decimal id) key = none := by
        refine find_eq_none_iff.mpr (h id List.mem_cons_self id' ?_ (hfirst id' List.mem_cons_self))
        exact List.mem_cons_of_mem _ List.mem_cons_self
      rw [hnone]
      dsimp only
      rw [hnext, Except.ok_bind]

/-- The digits of an id are always found, since they have just been appended. -/
theorem exists_indexcnFrom (sql : Str) (ids : List Nat) :
    ∃ statements, indexcnFrom sql ids = .ok statements := by
  induction ids generalizing sql with
  | nil => exact ⟨[], rfl⟩
  | cons id ids ih =>
    cases hfind : find (decimal id) (sql ++ decimal id) with
    | none => exact absurd (List.suffix_append sql (decimal id)).isInfix (find_eq_none_iff.mp hfind)
    | some pos =>
      obtain ⟨rest, hrest⟩ := ih ((sql ++ decimal id).take pos ++
        (sql ++ decimal id).drop (pos + (decimal id).length))
      rw [indexcnFrom_cons, hfind, eraseAt, Except.ok_bind, hrest]
      exact ⟨_, rfl⟩

/-- A statement tells how long its key is. -/
theorem length_of_statement {key key' digits digits' : Str} (hdigits : 44 ∉ digits)
    (hdigits' : 44 ∉ digits') (h : indexcnHead key ++ digits = indexcnHead key' ++ digits') :
    key.length = key'.length := by
  have hlast : ∀ {a b c d : Str}, 44 ∉ d → a ++ 44 :: c = b ++ 44 :: d → a.length ≤ b.length := by
    intro a b c d hd heq
    rcases List.append_eq_append_iff.mp heq with ⟨e, he, -⟩ | ⟨e, he, hrest⟩
    · simp [he]
    · cases e with
      | nil => simp [he]
      | cons ch e =>
        obtain ⟨-, rfl⟩ := List.cons.inj hrest
        exact absurd (List.mem_append_right _ List.mem_cons_self) hd
  simp only [indexcnHead_eq, List.append_assoc, List.cons_append, List.nil_append] at h
  have hkeys : (key ++ [39]) ++ 44 :: digits = (key' ++ [39]) ++ 44 :: digits' := by
    simpa using List.append_cancel_left h
  have hle := hlast hdigits' hkeys
  have hge := hlast hdigits hkeys.symm
  simp only [List.length_append] at hle hge
  omega

/-- When the digits of an id are deleted from the key, the next statement is that of no key as long as
it. -/
theorem exists_wrong {key : Str} {ids : List Nat} (hsorted : ids.Pairwise (· < ·)) {i j : Nat}
    (hi : i ∈ ids) (hj : j ∈ ids) (hij : i < j) (hinside : decimal i <:+: key) {statements : List Str}
    (h : indexcnFrom (indexcnHead key) ids = .ok statements) :
    ∃ statement ∈ statements, ∀ row : IndexRow, row.character.length = key.length →
      statement ≠ row.cnInsert := by
  induction ids generalizing statements with
  | nil => exact absurd hi List.not_mem_nil
  | cons id ids ih =>
    obtain ⟨hfirst, hrest⟩ := List.pairwise_cons.mp hsorted
    rw [indexcnFrom_cons, eraseAt_head, Except.ok_bind] at h
    obtain ⟨rest, hnext, hstatements⟩ := Except.bind_eq_ok.mp h
    obtain rfl := Except.ok.inj hstatements
    have hjmem : j ∈ ids := by
      refine (List.mem_cons.mp hj).resolve_left fun hjid => ?_
      rcases List.mem_cons.mp hi with rfl | hi
      · omega
      · exact absurd (hfirst i hi) (by omega)
    cases hfind : find (decimal id) key with
    | none =>
      rw [hfind] at hnext
      have himem : i ∈ ids := by
        refine (List.mem_cons.mp hi).resolve_left fun hiid => ?_
        exact find_eq_none_iff.mp hfind (hiid ▸ hinside)
      obtain ⟨statement, hmem, hwrong⟩ := ih hrest himem hjmem hnext
      exact ⟨statement, List.mem_cons_of_mem _ hmem, hwrong⟩
    | some pos =>
      rw [hfind] at hnext
      dsimp only at hnext
      cases ids with
      | nil => exact absurd hjmem List.not_mem_nil
      | cons id' ids =>
        rw [indexcnFrom_cons] at hnext
        obtain ⟨next, -, hlater⟩ := Except.bind_eq_ok.mp hnext
        obtain ⟨rest', -, hrest'⟩ := Except.bind_eq_ok.mp hlater
        obtain rfl := Except.ok.inj hrest'
        refine ⟨_, List.mem_cons_of_mem _ List.mem_cons_self, fun row hrow heq => ?_⟩
        have hcomma : ∀ n, 44 ∉ decimal n := fun n => not_mem_decimal (by decide)
        have hend : 44 ∉ lit ");" := by decide
        rw [cnInsert_eq, List.append_assoc, List.append_assoc, List.append_assoc] at heq
        have hlen := length_of_statement (by simp [hcomma, hend]) (by simp [hcomma, hend]) heq
        -- the digits that were deleted are missing
        have hpos : 0 < (decimal id).length := List.length_pos_iff.mpr (decimal_ne_nil id)
        have hle := (find_front hfind).length_le
        rw [hrow] at hlen
        simp only [List.length_append, List.length_take, List.length_drop] at hlen hle
        omega

/-! ## The whole index -/

/-- `buildIndexcn` comes to its end. -/
theorem exists_buildIndexcn (indexcn : IndexCn) : ∃ statements, buildIndexcn indexcn = .ok statements := by
  have hall : ∀ elem ∈ indexcn.toList, ∃ part,
      indexcnFrom (indexcnHead elem.1) elem.2.toList = .ok part :=
    fun elem _ => exists_indexcnFrom (indexcnHead elem.1) elem.2.toList
  obtain ⟨parts, hparts⟩ := Except.exists_mapM_ok.mpr hall
  exact ⟨parts.flatten, by rw [buildIndexcn, hparts]; rfl⟩

/-- No key has the digits of one of its ids but the largest. -/
def IndexCn.Undisturbed (indexcn : IndexCn) : Prop :=
  ∀ (key : Str) ids, indexcn[key]? = some ids → ∀ i ∈ ids, ∀ j ∈ ids, i < j → ¬ decimal i <:+: key

/-- The statements of an index whose keys are not disturbed. -/
theorem buildIndexcn_of_undisturbed {indexcn : IndexCn} (h : indexcn.Undisturbed) :
    buildIndexcn indexcn = .ok ((indexcnRows indexcn).map IndexRow.cnInsert) := by
  have hparts : indexcn.toList.mapM (fun elem => indexcnFrom (indexcnHead elem.1) elem.2.toList) =
      .ok (indexcn.toList.map fun elem =>
        elem.2.toList.map fun id => (⟨elem.1, id⟩ : IndexRow).cnInsert) := by
    refine Except.mapM_ok fun elem helem => ?_
    have hkey := Std.TreeMap.mem_toList_iff_getElem?_eq_some.mp helem
    refine indexcnFrom_of_apart (sorted_toList elem.2) fun i hi j hj => ?_
    exact h elem.1 elem.2 hkey i (Std.TreeSet.mem_toList.mp hi) j (Std.TreeSet.mem_toList.mp hj)
  have hrows : (indexcnRows indexcn).map IndexRow.cnInsert = (indexcn.toList.map fun elem =>
      elem.2.toList.map fun id => (⟨elem.1, id⟩ : IndexRow).cnInsert).flatten := by
    simp [indexcnRows, List.flatMap, List.map_flatten, Function.comp_def]
  rw [buildIndexcn, hparts, hrows]
  rfl

/-- **A statement inserts its row**, when the key can stand between quotes. -/
theorem inserted_cnInsert {row : IndexRow} (h : AllQuotable row.character) :
    IndexRow.inserted row.cnInsert = some row := by
  have hclose : lit "'," = [Sql.quote, 44] := by decide
  have hend : lit ");" = [41, 59] := by decide
  have hsplit : row.cnInsert =
      beforeId ++ (row.character ++ Sql.quote :: 44 :: (decimal row.indexId ++ lit ");")) := by
    unfold IndexRow.cnInsert beforeId
    simp only [hclose, List.append_assoc, List.cons_append, List.nil_append]
  have hclean : 0 ∉ row.cnInsert := by
    rw [hsplit, hend]
    simp only [List.mem_append, List.mem_cons, List.not_mem_nil, or_false, not_or]
    exact ⟨by decide, fun hmem => (h 0 hmem).1 rfl, by decide, by decide, not_mem_decimal (by decide),
      by decide, by decide⟩
  have hdigits : ∀ ch ∈ decimal row.indexId, isdigit ch = true := fun _ hch => isdigit_of_mem_decimal hch
  have htake : (decimal row.indexId ++ lit ");").takeWhile isdigit = decimal row.indexId := by
    rw [hend, List.takeWhile_append_of_pos hdigits]
    exact List.append_nil _
  have hdrop : (decimal row.indexId ++ lit ");").dropWhile isdigit = lit ");" := by
    rw [List.dropWhile_append_of_pos hdigits, hend]
    rfl
  have hnext : (44 :: (decimal row.indexId ++ lit ");")).head? ≠ some Sql.quote := by
    rw [List.head?_cons]
    decide
  have hread := Sql.literal_plain (fun ch hch => (h ch hch).2) hnext
  unfold IndexRow.inserted
  rw [cstr_of_not_mem hclean, hsplit]
  dsimp only
  rw [if_pos (isPrefixOf_append _ _), List.drop_left, hread]
  simp only [htake, hdrop, digitsValue_decimal]
  exact if_pos ⟨decimal_ne_nil _, trivial⟩

/-- The table has the rows of the index when no key is disturbed. -/
theorem insertedRows_eq {indexcn : IndexCn} (h : indexcn.Undisturbed)
    (hquotable : ∀ row ∈ indexcnRows indexcn, AllQuotable row.character) {statements : List Str}
    (hbuild : buildIndexcn indexcn = .ok statements) : insertedRows statements = indexcnRows indexcn := by
  obtain rfl := Except.ok.inj ((buildIndexcn_of_undisturbed h).symm.trans hbuild)
  unfold insertedRows
  rw [List.filterMap_map]
  refine (List.filterMap_congr fun row hrow => ?_).trans List.filterMap_some
  exact inserted_cnInsert (hquotable row hrow)

/-- **When the index is written as it is.** One statement for each key and each of its ids, and no
other, is executed exactly when no key has the digits of one of its ids but the largest. -/
theorem buildIndexcn_faithful_iff (indexcn : IndexCn)
    (hkeys : ∀ (key : Str) ids, indexcn[key]? = some ids → key.length = 3) :
    (∃ statements, buildIndexcn indexcn = .ok statements ∧
      statements.Perm ((indexcnRows indexcn).map IndexRow.cnInsert)) ↔
    ∀ (key : Str) ids, indexcn[key]? = some ids →
      ∀ i ∈ ids, ∀ j ∈ ids, i < j → ¬ decimal i <:+: key := by
  refine ⟨fun h key ids hkey i hi j hj hij hinside => ?_, fun h => ?_⟩
  · obtain ⟨statements, hbuild, hperm⟩ := h
    obtain ⟨parts, hparts, hflatten⟩ := Except.bind_eq_ok.mp hbuild
    obtain rfl := Except.ok.inj hflatten
    have hmem : (key, ids) ∈ indexcn.toList := Std.TreeMap.mem_toList_iff_getElem?_eq_some.mpr hkey
    obtain ⟨part, hpartmem, hpart⟩ := Except.of_mapM_ok hparts hmem
    obtain ⟨statement, hstatement, hwrong⟩ := exists_wrong (sorted_toList ids)
      (Std.TreeSet.mem_toList.mpr hi) (Std.TreeSet.mem_toList.mpr hj) hij hinside hpart
    have hexpected := hperm.mem_iff.mp (List.mem_flatten_of_mem hpartmem hstatement)
    obtain ⟨row, hrow, rfl⟩ := List.mem_map.mp hexpected
    obtain ⟨elem, helem, hline⟩ := List.mem_flatMap.mp hrow
    obtain ⟨line, -, rfl⟩ := List.mem_map.mp hline
    have hlen := hkeys elem.1 elem.2 (Std.TreeMap.mem_toList_iff_getElem?_eq_some.mp helem)
    exact hwrong _ (hlen.trans (hkeys key ids hkey).symm) rfl
  · exact ⟨_, buildIndexcn_of_undisturbed h, .refl _⟩

/-- The index of a dictionary of the two words 100 and 1000. -/
def hundreds : IndexCn := collectIndexcn ∅ [(lit "100", 1), (lit "1000", 1)]

theorem length_hundreds (key : Str) (ids : Std.TreeSet Nat) (h : hundreds[key]? = some ids) :
    key.length = 3 := by
  have hall : hundreds.toList.all (fun elem => elem.1.length = 3) = true := by decide
  have hmem := Std.TreeMap.mem_toList_iff_getElem?_eq_some.mpr h
  exact of_decide_eq_true (List.all_eq_true.mp hall _ hmem)

/-- The second word gets the line 12 and the key 00. -/
theorem hundreds_not_faithful :
    (hundreds.toList.all fun elem => elem.1.length = 3) = true ∧
      ¬ ∃ statements, buildIndexcn hundreds = .ok statements ∧
        statements.Perm ((indexcnRows hundreds).map IndexRow.cnInsert) := by
  refine ⟨by decide, ?_⟩
  intro h
  obtain ⟨statements, hbuild, hperm⟩ := h
  have hwrong : (buildIndexcn hundreds).check (fun statements =>
      lit "INSERT INTO indexCn (word, indexId) VALUES ('00',12);" ∈ statements ∧
        lit "INSERT INTO indexCn (word, indexId) VALUES ('00',12);" ∉
          (indexcnRows hundreds).map IndexRow.cnInsert) = true := by decide
  rw [hbuild] at hwrong
  obtain ⟨hmem, hnot⟩ := of_decide_eq_true hwrong
  exact hnot (hperm.mem_iff.mp hmem)

theorem buildIndexcn_hundreds :
    (∃ statements, buildIndexcn hundreds = .ok statements ∧
      statements.Perm ((indexcnRows hundreds).map IndexRow.cnInsert)) ↔
    ∀ (key : Str) ids, hundreds[key]? = some ids →
      ∀ i ∈ ids, ∀ j ∈ ids, i < j → ¬ decimal i <:+: key :=
  buildIndexcn_faithful_iff hundreds length_hundreds

end LightSearch
