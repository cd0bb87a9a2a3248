import Mathlib.Data.List.Basic
import Mathlib.Tactic.Common

/-!
# Ranges that cut a list

A span is a range of places with both ends included. Spans tile a stretch when each begins where the
one before it ends: then the pieces that they cut out of a list are the stretch of the list again, and
every place is in one of them.
-/

set_option autoImplicit false

universe u v

/-- The places from `left` to `right`. -/
@[ext] structure Span where
  left : Nat
  right : Nat
  deriving DecidableEq, Repr

namespace Span

variable {α : Type u} {β : Type v}

/-- What a span cuts out of a list. -/
def slice (l : List α) (s : Span) : List α := (l.drop s.left).take (s.right + 1 - s.left)

/-- A place of the span. -/
def Has (s : Span) (i : Nat) : Prop := s.left ≤ i ∧ i ≤ s.right

instance (s : Span) (i : Nat) : Decidable (s.Has i) := inferInstanceAs (Decidable (_ ∧ _))

/-- The span further down a list. -/
def shift (k : Nat) (s : Span) : Span := ⟨k + s.left, k + s.right⟩

theorem length_slice {l : List α} {s : Span} (h : s.right < l.length) :
    (slice l s).length = s.right + 1 - s.left := by
  unfold slice
  rw [List.length_take, List.length_drop]
  omega

theorem slice_of_length {l : List α} {i n : Nat} (h : 0 < n) :
    slice l ⟨i, i + n - 1⟩ = (l.drop i).take n := by
  have hend : i + n - 1 + 1 - i = n := by omega
  unfold slice
  dsimp only
  rw [hend]

theorem slice_map (f : α → β) (l : List α) (s : Span) :
    slice (l.map f) s = (slice l s).map f := by
  unfold slice
  rw [List.map_take, List.map_drop]

theorem slice_shift (k : Nat) (l : List α) (s : Span) :
    slice l (s.shift k) = slice (l.drop k) s := by
  have hlength : k + s.right + 1 - (k + s.left) = s.right + 1 - s.left := by omega
  unfold slice shift
  rw [List.drop_drop, hlength]

/-- A slice of a stretch is a slice of the list. -/
theorem slice_take {l : List α} {s : Span} {n : Nat} (h : s.right < n) :
    slice (l.take n) s = slice l s := by
  unfold slice
  rw [List.drop_take, List.take_take]
  congr 1
  omega

/-- A slice of a slice. -/
theorem slice_infix (l : List α) (s : Span) : slice l s <:+: l :=
  (List.take_prefix _ _).isInfix.trans (List.drop_suffix _ _).isInfix

/-- What occurs in a list is a slice of it. -/
theorem infix_iff {l w : List α} (hne : w ≠ []) :
    w <:+: l ↔ ∃ s : Span, s.left ≤ s.right ∧ s.right < l.length ∧ slice l s = w := by
  constructor
  · rintro ⟨front, back, rfl⟩
    have hpos := List.length_pos_of_ne_nil hne
    have hlength : front.length + w.length - 1 + 1 - front.length = w.length := by omega
    refine ⟨⟨front.length, front.length + w.length - 1⟩, by dsimp only; omega, ?_, ?_⟩
    · simp only [List.length_append]
      omega
    · unfold slice
      dsimp only
      rw [List.append_assoc, List.drop_left, hlength, List.take_left]
  · rintro ⟨s, -, -, rfl⟩
    exact slice_infix l s

/-! ## Tilings -/

/-- Spans one behind the other, from the place `a` up to the place `b`. -/
inductive Tiles : Nat → Nat → List Span → Prop
  | nil (a : Nat) : Tiles a a []
  | cons {a b right : Nat} {rest : List Span} (hle : a ≤ right) (hrest : Tiles (right + 1) b rest) :
    Tiles a b (⟨a, right⟩ :: rest)

namespace Tiles

variable {a b c : Nat} {spans spans' : List Span}

theorem single {i : Nat} : Tiles i (i + 1) [⟨i, i⟩] := .cons (Nat.le_refl i) (.nil _)

theorem le (h : Tiles a b spans) : a ≤ b := by
  induction h with
  | nil a => exact Nat.le_refl a
  | cons hle _ ih => omega

/-- The first span and those behind it. -/
theorem of_cons {s : Span} (h : Tiles a b (s :: spans)) :
    s.left = a ∧ Tiles (s.right + 1) b spans := by
  cases h with
  | cons hle hrest => exact ⟨rfl, hrest⟩

/-- Nothing tiles an empty stretch. -/
theorem eq_nil (h : Tiles a a spans) : spans = [] := by
  cases spans with
  | nil => rfl
  | cons s spans =>
    have hle := h.of_cons.2.le
    cases h with
    | cons hright _ => dsimp only at hle; omega

theorem append (h : Tiles a b spans) (h' : Tiles b c spans') : Tiles a c (spans ++ spans') := by
  induction h with
  | nil a => exact h'
  | cons hle _ ih => exact .cons hle (ih h')

/-- The first of the spans, when there is something to tile. -/
theorem ne_nil (h : Tiles a b spans) (hlt : a < b) : spans ≠ [] := by
  cases h with
  | nil => exact absurd hlt (Nat.lt_irrefl _)
  | cons => exact List.cons_ne_nil _ _

theorem bounds (h : Tiles a b spans) {s : Span} (hs : s ∈ spans) :
    a ≤ s.left ∧ s.left ≤ s.right ∧ s.right < b := by
  induction h with
  | nil => exact absurd hs List.not_mem_nil
  | @cons a b right rest hle hrest ih =>
    have hend := hrest.le
    rcases List.mem_cons.mp hs with rfl | hs
    · exact ⟨Nat.le_refl _, hle, Nat.lt_of_succ_le hend⟩
    · obtain ⟨hleft, hmid, hright⟩ := ih hs
      exact ⟨by omega, hmid, hright⟩

/-- The spans stand in their order, and do not overlap. -/
theorem pairwise (h : Tiles a b spans) : spans.Pairwise fun s s' => s.right < s'.left := by
  induction h with
  | nil a => exact .nil
  | @cons a b right rest hle hrest ih =>
    exact List.pairwise_cons.mpr ⟨fun s hs => (hrest.bounds hs).1, ih⟩

/-- Every place of the stretch is in one of the spans. -/
theorem covers (h : Tiles a b spans) {i : Nat} (ha : a ≤ i) (hb : i < b) :
    ∃ s ∈ spans, s.Has i := by
  induction h with
  | nil => omega
  | @cons a b right rest hle hrest ih =>
    by_cases hi : i ≤ right
    · exact ⟨_, List.mem_cons_self, ha, hi⟩
    · obtain ⟨s, hs, hhas⟩ := ih (by omega) hb
      exact ⟨s, List.mem_cons_of_mem _ hs, hhas⟩

theorem shift (h : Tiles a b spans) (k : Nat) :
    Tiles (k + a) (k + b) (spans.map (Span.shift k)) := by
  induction h with
  | nil a => exact .nil _
  | cons hle _ ih => exact .cons (Nat.add_le_add_left hle k) ih

/-- A tiling can be taken apart anywhere. -/
theorem of_append (h : Tiles a c (spans ++ spans')) : ∃ b, Tiles a b spans ∧ Tiles b c spans' := by
  induction spans generalizing a with
  | nil => exact ⟨a, .nil a, h⟩
  | cons s spans ih =>
    cases h with
    | cons hle hrest =>
      obtain ⟨b, hspans, hspans'⟩ := ih hrest
      exact ⟨b, .cons hle hspans, hspans'⟩

/-- Spans of one place: the last of them is in front of the end. -/
theorem last_single (h : Tiles a b spans) (hsingle : ∀ s ∈ spans, s.left = s.right) {last : Span}
    (hlast : spans.getLast? = some last) : last.left + 1 = b := by
  induction h with
  | nil => cases hlast
  | @cons a b right rest hle hrest ih =>
    rw [List.forall_mem_cons] at hsingle
    cases hrest with
    | nil =>
      obtain rfl := Option.some.inj hlast
      exact congrArg (· + 1) hsingle.1
    | cons hle' hrest' => exact ih hsingle.2 hlast

/-- Tilings of the spans of a tiling. -/
theorem flatMap {f : Span → List Span} (h : Tiles a b spans)
    (hf : ∀ s ∈ spans, Tiles s.left (s.right + 1) (f s)) : Tiles a b (spans.flatMap f) := by
  induction h with
  | nil a => exact .nil a
  | cons hle _ ih =>
    rw [List.forall_mem_cons] at hf
    exact hf.1.append (ih hf.2)

/-- **The pieces put together** are the stretch. -/
theorem flatten (h : Tiles a b spans) {l : List α} (hlen : b ≤ l.length) :
    (spans.map (slice l)).flatten = (l.drop a).take (b - a) := by
  induction h with
  | nil a => rw [List.map_nil, List.flatten_nil, Nat.sub_self, List.take_zero]
  | @cons a b right rest hle hrest ih =>
    have hend := hrest.le
    have hrest' : l.drop (right + 1) = (l.drop a).drop (right + 1 - a) := by
      rw [List.drop_drop]
      congr 1
      omega
    have hsplit : b - a = (right + 1 - a) + (b - (right + 1)) := by omega
    rw [List.map_cons, List.flatten_cons, ih hlen, hrest', hsplit, List.take_add]
    rfl

/-- A tiling of a whole list puts it together again. -/
theorem flatten_length {l : List α} (h : Tiles 0 l.length spans) :
    (spans.map (slice l)).flatten = l := by
  rw [h.flatten (Nat.le_refl _), List.drop_zero, Nat.sub_zero, List.take_length]

end Tiles

end Span
