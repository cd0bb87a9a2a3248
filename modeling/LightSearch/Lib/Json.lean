import LightSearch.Lib.Cxx
import LightSearch.Lib.Run

/-!
# JSON values of a C++ program

A JSON value, as a library like `nlohmann::json` holds it, and the two accesses that throw: the field
of a value (`j[key]`) and the conversion of a value to a string. The text form belongs to the library
and is a parameter (`Json.Text`).
-/

set_option autoImplicit false

open Cxx

/-- A JSON value. An object has its fields in the order of their keys; a number is its text. -/
inductive Json where
  | null
  | boolean (value : Bool)
  | number (text : Str)
  | string (value : Str)
  | array (items : List Json)
  | object (fields : List (Str × Json))

namespace Json

/-- The functions of the library between values and text. -/
structure Text where
  parse : Str → Except Fault Json
  dump : Json → Str

/-- `j[key]` on a value that is not `const`: a missing field is made and is `null`, `null` becomes an
object, and any other value throws. -/
def field (key : Str) : Json → Except Fault Json
  | object fields =>
    match fields.find? fun f => f.1 = key with
    | some f => .ok f.2
    | none => .ok null
  | null => .ok null
  | _ => .error (.thrown (lit "json::type_error"))

/-- The conversion to `std::string`: any value but a string throws. -/
def toStr : Json → Except Fault Str
  | string value => .ok value
  | _ => .error (.thrown (lit "json::type_error"))

/-- `string s = j[key]`. -/
def getString (j : Json) (key : Str) : Except Fault Str := do
  let value ← j.field key
  value.toStr

/-- The conversion to `std::vector<std::string>`: any value but an array of strings throws. -/
def toStrings : Json → Except Fault (List Str)
  | array items => items.mapM toStr
  | _ => .error (.thrown (lit "json::type_error"))

theorem toStrings_texts (values : List Str) : (array (values.map string)).toStrings = .ok values := by
  rw [toStrings]
  induction values with
  | nil => rfl
  | cons value values ih =>
    rw [List.map_cons, List.mapM_cons, ih]
    rfl

/-! ## Flat objects

The text form for objects whose fields are strings. Values are escaped when they are printed; what is
parsed back are texts without escapes. -/

/-- A character of a string in JSON text. -/
def escape (ch : UInt8) : Str :=
  let hex (n : UInt8) : UInt8 := if n < 10 then 48 + n else 87 + n
  if ch = 34 then lit "\\\""
  else if ch = 92 then lit "\\\\"
  else if ch = 8 then lit "\\b"
  else if ch = 9 then lit "\\t"
  else if ch = 10 then lit "\\n"
  else if ch = 12 then lit "\\f"
  else if ch = 13 then lit "\\r"
  else if ch < 32 then lit "\\u00" ++ [48 + ch / 16, hex (ch % 16)]
  else [ch]

def quote (s : Str) : Str := 34 :: (s.flatMap escape ++ [34])

def dumpField : Str × Json → Str
  | (key, string value) => quote key ++ 58 :: quote value
  | (key, _) => quote key ++ lit ":null"

/-- The fields of a text that was cut at its quotes. -/
def flatFields : List Str → Option (List (Str × Json))
  | [key, colon, value, close] =>
    if colon = lit ":" ∧ close = lit "\x7d" then some [(key, string value)] else none
  | key :: colon :: value :: comma :: rest =>
    if colon = lit ":" ∧ comma = lit "," then
      (flatFields rest).map fun fields => (key, string value) :: fields
    else none
  | _ => none

/-- The text form of flat objects. -/
def flat : Text where
  parse text :=
    match text.splitOn 34 with
    | start :: rest =>
      match flatFields rest with
      | some fields =>
        if start = lit "\x7b" then .ok (object fields)
        else .error (.thrown (lit "json::parse_error"))
      | none => .error (.thrown (lit "json::parse_error"))
    | [] => .error (.thrown (lit "json::parse_error"))
  dump
    | object fields => 123 :: ((lit ",").intercalate (fields.map dumpField) ++ [125])
    | _ => lit "null"

theorem escape_clean : ∀ ch : UInt8, 0 ∉ escape ch :=
  forall_byte (by decide +kernel)

theorem quote_clean (s : Str) : 0 ∉ quote s := by
  unfold quote
  simp only [List.mem_cons, List.mem_append, List.mem_flatMap, List.not_mem_nil, or_false, not_or,
    not_exists, not_and]
  exact ⟨by decide, fun ch _ => escape_clean ch, by decide⟩

theorem dumpField_clean (f : Str × Json) : 0 ∉ dumpField f := by
  unfold dumpField
  split
  · simp only [List.mem_append, List.mem_cons, not_or]
    exact ⟨quote_clean _, by decide, quote_clean _⟩
  · simp only [List.mem_append, not_or]
    exact ⟨quote_clean _, by decide⟩

/-- What holds of some texts and of what stands between them holds of the whole. -/
theorem intercalate_induction {P : Str → Prop} (nil : P [])
    (append : ∀ s t, P s → P t → P (s ++ t)) {sep : Str} (hsep : P sep) {ls : List Str}
    (h : ∀ l ∈ ls, P l) : P (sep.intercalate ls) := by
  induction ls with
  | nil => exact nil
  | cons l ls ih =>
    have hl := h l List.mem_cons_self
    have hls := ih fun l' hl' => h l' (List.mem_cons_of_mem _ hl')
    cases ls with
    | nil =>
      rw [List.intercalate_singleton]
      exact hl
    | cons l' ls =>
      rw [List.intercalate_cons_cons]
      exact append _ _ (append _ _ hl hsep) hls

theorem intercalate_clean {sep : Str} (hsep : 0 ∉ sep) {ls : List Str} (h : ∀ l ∈ ls, 0 ∉ l) :
    0 ∉ sep.intercalate ls :=
  intercalate_induction (P := fun s => 0 ∉ s) List.not_mem_nil
    (fun _ _ hs ht hmem => (List.mem_append.mp hmem).elim hs ht) hsep h

/-- The text of a flat object has no NUL. -/
theorem flat_clean (j : Json) : 0 ∉ flat.dump j := by
  unfold flat
  dsimp only
  split
  · simp only [List.mem_append, List.mem_cons, List.not_mem_nil, or_false, not_or]
    exact ⟨by decide, intercalate_clean (by decide) fun l hl => by
      obtain ⟨f, -, rfl⟩ := List.mem_map.mp hl
      exact dumpField_clean f, by decide⟩
  · decide

/-! ## Shallow objects

The text form for objects whose fields are strings or lists of strings. Texts are parsed when they are
flat objects of ASCII strings. -/

def dumpItem : Json → Str
  | string value => quote value
  | _ => lit "null"

def dumpValue : Json → Str
  | string value => quote value
  | array items => 91 :: ((lit ",").intercalate (items.map dumpItem) ++ [93])
  | _ => lit "null"

/-- A string of ASCII bytes. -/
def isAsciiString : Json → Bool
  | string value => value.all fun ch => ch < 128
  | _ => false

/-- The text form of shallow objects. -/
def shallow : Text where
  parse text := do
    match ← flat.parse text with
    | object fields =>
      if fields.all fun f => isAsciiString f.2 then .ok (object fields)
      else .error (.thrown (lit "json::parse_error"))
    | _ => .error (.thrown (lit "json::parse_error"))
  dump
    | object fields =>
      123 :: ((lit ",").intercalate (fields.map fun f => quote f.1 ++ 58 :: dumpValue f.2) ++ [125])
    | _ => lit "null"

theorem dumpValue_clean (j : Json) : 0 ∉ dumpValue j := by
  have hitem : ∀ item, 0 ∉ dumpItem item := by
    intro item
    unfold dumpItem
    split
    · exact quote_clean _
    · decide
  unfold dumpValue
  split
  · exact quote_clean _
  · simp only [List.mem_cons, List.mem_append, List.not_mem_nil, or_false, not_or]
    refine ⟨by decide, intercalate_clean (by decide) fun l hl => ?_, by decide⟩
    obtain ⟨item, -, rfl⟩ := List.mem_map.mp hl
    exact hitem item
  · decide

/-- The text of a shallow object has no NUL. -/
theorem shallow_clean (j : Json) : 0 ∉ shallow.dump j := by
  unfold shallow
  dsimp only
  split
  · simp only [List.mem_append, List.mem_cons, List.not_mem_nil, or_false, not_or]
    refine ⟨by decide, intercalate_clean (by decide) fun l hl => ?_, by decide⟩
    obtain ⟨f, -, rfl⟩ := List.mem_map.mp hl
    simp only [List.mem_append, List.mem_cons, not_or]
    exact ⟨quote_clean _, by decide, dumpValue_clean _⟩
  · decide

/-- The strings of a parsed text are ASCII. -/
theorem shallow_ascii {text key value : Str} {j : Json} (hparse : shallow.parse text = .ok j)
    (hvalue : j.getString key = .ok value) : ∀ ch ∈ value, ch < 128 := by
  obtain ⟨flat, -, hchecked⟩ := Except.bind_eq_ok.mp hparse
  cases flat with
  | object fields =>
    dsimp only at hchecked
    split at hchecked
    · next hall =>
      obtain rfl := Except.ok.inj hchecked
      obtain ⟨field, hfield, hstr⟩ := Except.bind_eq_ok.mp hvalue
      unfold Json.field at hfield
      dsimp only at hfield
      split at hfield
      · next f hfind =>
        obtain rfl := Except.ok.inj hfield
        have hascii := List.all_eq_true.mp hall f (List.mem_of_find?_eq_some hfind)
        cases hf : f.2 with
        | string str =>
          rw [hf] at hascii hstr
          obtain rfl := Except.ok.inj hstr
          exact fun ch hch => of_decide_eq_true (List.all_eq_true.mp hascii ch hch)
        | _ =>
          rw [hf] at hstr
          cases hstr
      · obtain rfl := Except.ok.inj hfield
        cases hstr
    · cases hchecked
  | _ => cases hchecked

end Json
