import LightSearch.Lib.Json
import LightSearch.Lib.Utf8

/-!
# The text of JSON messages

A message is an object whose fields are strings and lists of strings. What a program relies on when it
sends such an object as text is what the library says of its two functions (`Json.Text.Laws`): the text
is UTF-8 without a NUL, also when the strings are not UTF-8, and what is read back is the object with
the invalid bytes of its strings left out.

`compact` is a text form with these laws (`compact_laws`). It writes the strings as the library does,
and it reads what it wrote.
-/

set_option autoImplicit false

open Cxx

namespace Json

/-- What a field of a message holds. -/
inductive Value where
  | text (value : Str)
  | texts (values : List Str)

def Value.toJson : Value → Json
  | text value => .string value
  | texts values => .array (values.map .string)

/-- The field with the bytes of its strings that are no text left out. -/
def Value.ignore : Value → Value
  | text value => .text (Utf8.ignore value)
  | texts values => .texts (values.map Utf8.ignore)

/-- The object with these fields. -/
def message (fields : List (Str × Value)) : Json := object (fields.map fun f => (f.1, f.2.toJson))

/-- The keys of an object are texts in their order. -/
structure Keyed (fields : List (Str × Value)) : Prop where
  sorted : fields.Pairwise fun f g => f.1 < g.1
  valid : ∀ f ∈ fields, Utf8.Valid f.1

/-- What the library says of the text of messages, when it is told to ignore the bytes that are not
UTF-8. -/
structure Text.Laws (json : Text) : Prop where
  dump_clean : ∀ j, 0 ∉ json.dump j
  dump_valid : ∀ fields, Keyed fields → Utf8.Valid (json.dump (message fields))
  parse_dump : ∀ fields, Keyed fields →
    json.parse (json.dump (message fields)) = .ok (message (fields.map fun f => (f.1, f.2.ignore)))

/-! ## Reading -/

/-- The value of a hexadecimal digit. -/
def hexValue (ch : UInt8) : Option UInt8 :=
  if 48 ≤ ch ∧ ch < 58 then some (ch - 48)
  else if 97 ≤ ch ∧ ch < 103 then some (ch - 87)
  else none

/-- The character behind a backslash. -/
def unescape (ch : UInt8) : Option UInt8 :=
  if ch = 34 ∨ ch = 92 then some ch
  else if ch = 98 then some 8
  else if ch = 116 then some 9
  else if ch = 110 then some 10
  else if ch = 102 then some 12
  else if ch = 114 then some 13
  else none

/-- The character of a `\u` escape that begins with two zeros. -/
def unescapeHex (high low : UInt8) : Option UInt8 := do
  let high ← hexValue high
  let low ← hexValue low
  if high < 8 then some (16 * high + low) else none

/-- A string from behind its opening quote, and the text behind it. -/
def unquote : Str → Option (Str × Str)
  | [] => none
  | ch :: text =>
    if ch = 34 then some ([], text)
    else if ch = 92 then
      match text with
      | [] => none
      | ch :: text =>
        if ch = 117 then
          match text with
          | zero :: zero' :: high :: low :: text =>
            if zero = 48 ∧ zero' = 48 then do
              let ch ← unescapeHex high low
              (unquote text).map fun p => (ch :: p.1, p.2)
            else none
          | _ => none
        else do
          let ch ← unescape ch
          (unquote text).map fun p => (ch :: p.1, p.2)
    else (unquote text).map fun p => (ch :: p.1, p.2)
termination_by structural text => text

def readString : Str → Option (Str × Str)
  | 34 :: text => unquote text
  | _ => none

/-- What `item` reads between commas, up to a closing character. -/
def readItems {α : Type} (item : Str → Option (α × Str)) (close : UInt8) :
    Nat → Str → Option (List α × Str)
  | 0, _ => none
  | n + 1, text => do
    let (value, rest) ← item text
    match rest with
    | [] => none
    | ch :: rest =>
      if ch = close then some ([value], rest)
      else if ch = 44 then do
        let (values, rest) ← readItems item close n rest
        some (value :: values, rest)
      else none

/-- A list from behind its opening bracket. -/
def readList {α : Type} (item : Str → Option (α × Str)) (close : UInt8) (text : Str) :
    Option (List α × Str) :=
  match text with
  | [] => none
  | ch :: rest => if ch = close then some ([], rest) else readItems item close text.length text

def readValue : Str → Option (Value × Str)
  | 34 :: text => do
    let (value, rest) ← unquote text
    some (.text value, rest)
  | 91 :: text => do
    let (values, rest) ← readList readString 93 text
    some (.texts values, rest)
  | _ => none

def readField (text : Str) : Option ((Str × Value) × Str) := do
  let (key, rest) ← readString text
  match rest with
  | 58 :: rest => do
    let (value, rest) ← readValue rest
    some ((key, value), rest)
  | _ => none

def readObject : Str → Option (List (Str × Value))
  | 123 :: text => do
    let (fields, rest) ← readList readField 125 text
    if rest = [] then some fields else none
  | _ => none

/-- A string with the bytes that are no text left out. -/
def ignoreItem : Json → Json
  | string value => string (Utf8.ignore value)
  | j => j

def ignoreValue : Json → Json
  | array items => array (items.map ignoreItem)
  | j => ignoreItem j

/-- The text form of messages. -/
def compact : Text where
  parse text :=
    match readObject text with
    | some fields => .ok (message fields)
    | none => .error (.thrown (lit "json::parse_error"))
  dump
    | object fields => shallow.dump (object (fields.map fun f => (f.1, ignoreValue f.2)))
    | _ => lit "null"

/-! ## What was written is read back -/

theorem unquote_unescape {e ch : UInt8} (he : e ≠ 117) (h : unescape e = some ch) (text : Str) :
    unquote (92 :: e :: text) = (unquote text).map fun p => (ch :: p.1, p.2) := by
  rw [unquote.eq_def]
  dsimp only
  rw [if_neg (by decide), if_pos rfl, if_neg he, h]
  rfl

theorem unquote_hex {high low ch : UInt8} (h : unescapeHex high low = some ch) (text : Str) :
    unquote (92 :: 117 :: 48 :: 48 :: high :: low :: text) =
      (unquote text).map fun p => (ch :: p.1, p.2) := by
  rw [unquote, if_neg (by decide), if_pos rfl, if_pos rfl, if_pos ⟨rfl, rfl⟩, h]
  rfl

/-- One written character is read as it was. -/
theorem unquote_escape (ch : UInt8) (text : Str) :
    unquote (escape ch ++ text) = (unquote text).map fun p => (ch :: p.1, p.2) := by
  have hhex : ∀ ch : UInt8, ch < 32 → unescapeHex (48 + ch / 16)
      (if ch % 16 < 10 then 48 + ch % 16 else 87 + ch % 16) = some ch :=
    forall_byte (by decide +kernel)
  unfold escape
  dsimp only
  split
  · next h => exact h ▸ unquote_unescape (by decide) rfl text
  split
  · next h => exact h ▸ unquote_unescape (by decide) rfl text
  split
  · next h => exact h ▸ unquote_unescape (by decide) rfl text
  split
  · next h => exact h ▸ unquote_unescape (by decide) rfl text
  split
  · next h => exact h ▸ unquote_unescape (by decide) rfl text
  split
  · next h => exact h ▸ unquote_unescape (by decide) rfl text
  split
  · next h => exact h ▸ unquote_unescape (by decide) rfl text
  split
  · next h => exact unquote_hex (hhex ch h) text
  · next hquote hbackslash _ _ _ _ _ _ =>
    rw [List.singleton_append, unquote.eq_def]
    exact (if_neg hquote).trans (if_neg hbackslash)

/-- A written string is read as it was. -/
theorem readString_quote (s rest : Str) : readString (quote s ++ rest) = some (s, rest) := by
  have hunquote : unquote (s.flatMap escape ++ 34 :: rest) = some (s, rest) := by
    induction s with
    | nil =>
      rw [List.flatMap_nil, List.nil_append, unquote.eq_def]
      exact if_pos rfl
    | cons ch s ih => rw [List.flatMap_cons, List.append_assoc, unquote_escape, ih, Option.map_some]
  rw [quote, List.cons_append, List.append_assoc, List.singleton_append]
  exact hunquote

theorem lit_comma : lit "," = [44] := rfl

section List

variable {α : Type} {item : Str → Option (α × Str)} {print : α → Str}

theorem readItems_print {close : UInt8} (hclose : close ≠ 44) {xs : List α} (hxs : xs ≠ [])
    (h : ∀ x, ∀ rest, item (print x ++ rest) = some (x, rest)) (rest : Str) {n : Nat}
    (hn : xs.length ≤ n) :
    readItems item close n ((lit ",").intercalate (xs.map print) ++ close :: rest) =
      some (xs, rest) := by
  induction xs generalizing n with
  | nil => exact absurd rfl hxs
  | cons x xs ih =>
    obtain ⟨n, rfl⟩ : ∃ k, n = k + 1 := Nat.exists_eq_succ_of_ne_zero (by rintro rfl; simp at hn)
    cases xs with
    | nil =>
      rw [List.map_singleton, List.intercalate_singleton, readItems, h]
      exact if_pos rfl
    | cons y ys =>
      have hrest := ih (List.cons_ne_nil y ys) (Nat.le_of_succ_le_succ hn)
      rw [List.map_cons, List.map_cons, List.intercalate_cons_cons, ← List.map_cons,
        List.append_assoc, List.append_assoc, readItems, h]
      dsimp only [Option.bind_eq_bind, Option.bind_some]
      rw [lit_comma, List.singleton_append]
      dsimp only
      rw [if_neg (Ne.symm hclose), if_pos rfl, ← lit_comma, hrest]
      rfl

theorem length_intercalate (ls : List Str) : ls.length ≤ ((lit ",").intercalate ls).length + 1 := by
  induction ls with
  | nil => exact Nat.zero_le _
  | cons l ls ih =>
    cases ls with
    | nil => exact Nat.succ_le_succ (Nat.zero_le _)
    | cons l' ls =>
      rw [List.intercalate_cons_cons, List.length_append, List.length_append, List.length_cons]
      have hcomma : (lit ",").length = 1 := rfl
      omega

/-- A written list is read as it was. -/
theorem readList_print (close : UInt8) (hclose : close ≠ 44)
    (h : ∀ x, ∀ rest, item (print x ++ rest) = some (x, rest))
    (hopen : ∀ x, ∃ ch s, print x = ch :: s ∧ ch ≠ close) (xs : List α) (rest : Str) :
    readList item close ((lit ",").intercalate (xs.map print) ++ close :: rest) =
      some (xs, rest) := by
  cases xs with
  | nil => exact if_pos rfl
  | cons x xs =>
    have hlen := length_intercalate ((x :: xs).map print)
    have hitems := readItems_print hclose (List.cons_ne_nil x xs) h rest
      (n := ((lit ",").intercalate ((x :: xs).map print) ++ close :: rest).length)
      (by simp only [List.length_append, List.length_cons, List.length_map] at hlen ⊢; omega)
    obtain ⟨ch, s, hx, hch⟩ := hopen x
    obtain ⟨t, ht⟩ : ∃ t, (lit ",").intercalate ((x :: xs).map print) = ch :: t := by
      cases xs with
      | nil => exact ⟨s, by rw [List.map_singleton, List.intercalate_singleton, hx]⟩
      | cons y ys =>
        exact ⟨_, by rw [List.map_cons, List.map_cons, List.intercalate_cons_cons, hx,
          List.cons_append, List.cons_append]⟩
    rw [ht, List.cons_append] at hitems ⊢
    rw [readList, if_neg hch]
    exact hitems

end List

theorem readValue_dumpValue (v : Value) (rest : Str) :
    readValue (dumpValue v.toJson ++ rest) = some (v, rest) := by
  cases v with
  | text value =>
    have hread := readString_quote value rest
    rw [Value.toJson, dumpValue]
    unfold quote at hread ⊢
    rw [List.cons_append, readString] at hread
    rw [List.cons_append, readValue, hread]
    rfl
  | texts values =>
    have hread := readList_print 93 (by decide) readString_quote
      (fun s => ⟨34, _, rfl, by decide⟩) values rest
    have hitems : (values.map Json.string).map dumpItem = values.map quote := List.map_map
    rw [Value.toJson, dumpValue, List.cons_append, List.append_assoc, List.singleton_append, hitems,
      readValue, hread]
    rfl

theorem readField_print (f : Str × Value) (rest : Str) :
    readField (quote f.1 ++ 58 :: dumpValue f.2.toJson ++ rest) = some (f, rest) := by
  rw [List.append_assoc, List.cons_append, readField, readString_quote]
  change ((readValue (dumpValue f.2.toJson ++ rest)).bind fun p => some ((f.1, p.1), p.2)) = _
  rw [readValue_dumpValue]
  rfl

/-- A written message is read as it was. -/
theorem readObject_dump (fields : List (Str × Value)) :
    readObject (shallow.dump (message fields)) = some fields := by
  have hread := readList_print 125 (by decide) readField_print
    (fun f => ⟨34, _, rfl, by decide⟩) fields []
  rw [message, shallow]
  dsimp only
  rw [List.map_map, readObject, Function.comp_def, hread]
  rfl

/-! ## The laws of the text form -/

/-- The strings of a value are texts. -/
def Value.Valid : Value → Prop
  | text value => Utf8.Valid value
  | texts values => ∀ value ∈ values, Utf8.Valid value

theorem Value.valid_ignore (v : Value) : v.ignore.Valid := by
  cases v with
  | text value => exact Utf8.valid_ignore value
  | texts values =>
    intro value hvalue
    obtain ⟨raw, -, rfl⟩ := List.mem_map.mp hvalue
    exact Utf8.valid_ignore raw

theorem Value.Valid.ignore {v : Value} (h : v.Valid) : v.ignore = v := by
  cases v with
  | text value => exact congrArg text (Utf8.Valid.ignore h)
  | texts values =>
    have hmap : values.map Utf8.ignore = values.map id :=
      List.map_congr_left fun value hvalue => Utf8.Valid.ignore (h value hvalue)
    rw [Value.ignore, hmap, List.map_id]

/-- Only ASCII is escaped. -/
theorem flatMap_escape_wide {s : Str} (h : ∀ ch ∈ s, 128 ≤ ch) : s.flatMap escape = s := by
  have hwide : ∀ ch : UInt8, 128 ≤ ch → escape ch = [ch] := forall_byte (by decide +kernel)
  induction s with
  | nil => rfl
  | cons ch s ih =>
    rw [List.flatMap_cons, hwide ch (h ch List.mem_cons_self),
      ih fun ch' hch' => h ch' (List.mem_cons_of_mem _ hch'), List.singleton_append]

/-- A written text is a text: what is escaped is ASCII, and so is how it is escaped. -/
theorem valid_quote {s : Str} (h : Utf8.Valid s) : Utf8.Valid (quote s) := by
  have hascii : ∀ ch : UInt8, ch < 128 → ((escape ch).all fun ch' => ch' < 128) = true :=
    forall_byte (by decide +kernel)
  have hescape : Utf8.Valid (s.flatMap escape) := by
    obtain ⟨cs, rfl⟩ := h
    induction cs with
    | nil => exact Utf8.valid_nil
    | cons c cs ih =>
      rw [Utf8.encode_cons, List.flatMap_append]
      refine Utf8.Valid.append ?_ ih
      by_cases hsize : c.utf8Size = 1
      · apply Utf8.valid_ascii
        intro ch' hch'
        obtain ⟨ch, hch, hch'⟩ := List.mem_flatMap.mp hch'
        refine of_decide_eq_true (List.all_eq_true.mp (hascii ch ?_) ch' hch')
        obtain ⟨lead, tail, hshape, hlead, hlen, -⟩ := Utf8.encodeChar_shape c
        rw [hsize] at hlead hlen
        obtain rfl := List.length_eq_zero_iff.mp (Nat.succ.inj hlen)
        rw [hshape, List.mem_singleton] at hch
        exact hch ▸ hlead
      · rw [flatMap_escape_wide fun ch hch => Utf8.le_of_mem_encodeChar hsize hch]
        exact ⟨[c], List.append_nil _⟩
  exact Utf8.Valid.cons (by decide) (hescape.append (Utf8.Valid.cons (by decide) Utf8.valid_nil))

theorem valid_intercalate {ls : List Str} (h : ∀ l ∈ ls, Utf8.Valid l) :
    Utf8.Valid ((lit ",").intercalate ls) :=
  intercalate_induction Utf8.valid_nil (fun _ _ => Utf8.Valid.append) (Utf8.valid_lit ",") h

theorem valid_dumpValue {v : Value} (h : v.Valid) : Utf8.Valid (dumpValue v.toJson) := by
  cases v with
  | text value => exact valid_quote h
  | texts values =>
    have hitems : Utf8.Valid ((lit ",").intercalate ((values.map Json.string).map dumpItem)) := by
      apply valid_intercalate
      rw [List.map_map]
      intro l hl
      obtain ⟨value, hvalue, rfl⟩ := List.mem_map.mp hl
      exact valid_quote (h value hvalue)
    exact Utf8.Valid.cons (by decide) (hitems.append (Utf8.Valid.cons (by decide) Utf8.valid_nil))

theorem valid_shallow {fields : List (Str × Value)} (hkeys : ∀ f ∈ fields, Utf8.Valid f.1)
    (hvalues : ∀ f ∈ fields, f.2.Valid) : Utf8.Valid (shallow.dump (message fields)) := by
  have hfields : Utf8.Valid ((lit ",").intercalate
      ((fields.map fun f => (f.1, f.2.toJson)).map fun f => quote f.1 ++ 58 :: dumpValue f.2)) := by
    apply valid_intercalate
    rw [List.map_map]
    intro l hl
    obtain ⟨f, hf, rfl⟩ := List.mem_map.mp hl
    exact (valid_quote (hkeys f hf)).append
      (Utf8.Valid.cons (by decide) (valid_dumpValue (hvalues f hf)))
  exact Utf8.Valid.cons (by decide) (hfields.append (Utf8.Valid.cons (by decide) Utf8.valid_nil))

theorem ignoreValue_toJson (v : Value) : ignoreValue v.toJson = v.ignore.toJson := by
  cases v with
  | text value => rfl
  | texts values =>
    rw [Value.toJson, ignoreValue, List.map_map, Value.ignore, Value.toJson, List.map_map]
    rfl

theorem compact_dump (fields : List (Str × Value)) :
    compact.dump (message fields) =
      shallow.dump (message (fields.map fun f => (f.1, f.2.ignore))) := by
  have hfields : (fields.map fun f => (f.1, f.2.toJson)).map (fun f => (f.1, ignoreValue f.2)) =
      (fields.map fun f => (f.1, f.2.ignore)).map fun f => (f.1, f.2.toJson) := by
    rw [List.map_map, List.map_map]
    exact List.map_congr_left fun f _ => congrArg (Prod.mk f.1) (ignoreValue_toJson f.2)
  rw [message, message, ← hfields]
  rfl

/-- **The text form has the laws.** -/
theorem compact_laws : compact.Laws where
  dump_clean j := by
    cases j with
    | object fields => exact shallow_clean (object (fields.map fun f => (f.1, ignoreValue f.2)))
    | _ => exact (by decide : 0 ∉ lit "null")
  dump_valid fields h := by
    rw [compact_dump]
    apply valid_shallow
    · intro f hf
      obtain ⟨g, hg, rfl⟩ := List.mem_map.mp hf
      exact h.valid g hg
    · intro f hf
      obtain ⟨g, -, rfl⟩ := List.mem_map.mp hf
      exact g.2.valid_ignore
  parse_dump fields _ := by
    have hread := readObject_dump (fields.map fun f => (f.1, f.2.ignore))
    rw [compact_dump]
    simp only [compact, hread]

/-! ## One line -/

/-- No control characters. -/
def Printable (s : Str) : Prop := ∀ ch ∈ s, 32 ≤ ch

instance (s : Str) : Decidable (Printable s) := inferInstanceAs (Decidable (∀ _ ∈ _, _))

theorem Printable.append {s t : Str} (hs : Printable s) (ht : Printable t) : Printable (s ++ t) :=
  List.forall_mem_append.mpr ⟨hs, ht⟩

theorem Printable.cons {ch : UInt8} {s : Str} (hch : 32 ≤ ch) (hs : Printable s) :
    Printable (ch :: s) := List.forall_mem_cons.mpr ⟨hch, hs⟩

theorem printable_nil : Printable [] := List.forall_mem_nil _

theorem printable_escape : ∀ ch : UInt8, Printable (escape ch) := forall_byte (by decide +kernel)

theorem printable_quote (s : Str) : Printable (quote s) := by
  have hescaped : Printable (s.flatMap escape) := List.forall_mem_flatMap.mpr fun ch _ => printable_escape ch
  exact .cons (by decide) (hescaped.append (by decide))

theorem printable_intercalate {ls : List Str} (h : ∀ l ∈ ls, Printable l) :
    Printable ((lit ",").intercalate ls) :=
  intercalate_induction printable_nil (fun _ _ => Printable.append) (by decide) h

theorem printable_dumpValue (j : Json) : Printable (dumpValue j) := by
  have hitem : ∀ item, Printable (dumpItem item) := by
    intro item
    unfold dumpItem
    split
    · exact printable_quote _
    · decide
  unfold dumpValue
  split
  · exact printable_quote _
  · refine .cons (by decide) (.append (printable_intercalate fun l hl => ?_) (by decide))
    obtain ⟨item, -, rfl⟩ := List.mem_map.mp hl
    exact hitem item
  · decide

theorem printable_shallow (j : Json) : Printable (shallow.dump j) := by
  unfold shallow
  dsimp only
  split
  · refine .cons (by decide) (.append (printable_intercalate fun l hl => ?_) (by decide))
    obtain ⟨f, -, rfl⟩ := List.mem_map.mp hl
    exact (printable_quote _).append (.cons (by decide) (printable_dumpValue _))
  · decide

/-- **The text is one line.** -/
theorem compact_line (j : Json) : newline ∉ compact.dump j := by
  have hprintable : Printable (compact.dump j) := by
    cases j with
    | object fields => exact printable_shallow (object (fields.map fun f => (f.1, ignoreValue f.2)))
    | _ => exact (by decide : Printable (lit "null"))
  exact fun hmem => absurd (hprintable _ hmem) (by decide)

end Json
