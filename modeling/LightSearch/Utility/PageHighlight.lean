import LightSearch.Lib.Scan
import LightSearch.Utility.PageResult

/-!
# Which occurrences are highlighted

The words are highlighted one after the other, each in the text with the colours of the words before
it. `marked` keeps the colours that were inserted apart from the bytes of the text, and the program's
text is what it renders to (`highlight_marked`). Taking the colours out again gives the text
(`Highlighting.strip`).

A word is found where its bytes stand side by side, so an occurrence is missed when a colour of an
earlier word stands inside it, and when an occurrence of the same word reaches into it. The
occurrences that are found are the `Free` ones (`free_iff_found`).
-/

set_option autoImplicit false

namespace LightSearch.WebPageQuery

open Cxx Scan

/-! ## Texts with colours -/

/-- A byte of the text, or the sequence that puts the colour on or off. -/
inductive Item where
  | byte (ch : UInt8)
  | on
  | off
  deriving DecidableEq

/-- The bytes that are written. -/
def Item.render : Item → Str
  | byte ch => [ch]
  | on => lit "\x1b[93m"
  | off => lit "\x1b[39m"

def render (items : List Item) : Str := items.flatMap Item.render

/-- The text without the inserted sequences. -/
def strip (items : List Item) : Str :=
  items.filterMap fun
    | .byte ch => some ch
    | _ => none

/-- The bytes of a word side by side. -/
def wordItems (word : Str) : List Item := word.map Item.byte

/-- What the scanner for a word finds. -/
def wordItemsAt (word : Str) (items : List Item) : Option Nat :=
  if wordItems word <+: items then some word.length else none

/-- One word gets its colour. -/
def colour (word : Str) (items : List Item) : List Item :=
  scan (wordItemsAt word) (fun found => .on :: (found ++ [.off])) items

/-- A text in which the words got their colours, one after the other. -/
def marked (words : List Str) (desc : Str) : List Item :=
  words.foldl (fun items word => colour word items) (desc.map Item.byte)

/-- A word that can be highlighted: it is not empty, and all its bytes are those of characters of
several bytes. -/
def Wide (word : Str) : Prop := word ≠ [] ∧ ∀ ch ∈ word, 128 ≤ ch

instance (word : Str) : Decidable (Wide word) := inferInstanceAs (Decidable (_ ∧ _))

variable {word : Str} {items out : List Item}

@[simp] theorem strip_nil : strip [] = [] := rfl

@[simp] theorem strip_byte (ch : UInt8) (items : List Item) :
    strip (.byte ch :: items) = ch :: strip items := rfl

@[simp] theorem strip_on (items : List Item) : strip (.on :: items) = strip items := rfl

@[simp] theorem strip_off (items : List Item) : strip (.off :: items) = strip items := rfl

@[simp] theorem strip_append (items more : List Item) :
    strip (items ++ more) = strip items ++ strip more := List.filterMap_append

@[simp] theorem strip_wordItems (word : Str) : strip (wordItems word) = word := by
  induction word with
  | nil => rfl
  | cons ch word ih => exact congrArg (ch :: ·) ih

theorem measures_wordItemsAt (hne : word ≠ []) : Measures (wordItemsAt word) := by
  intro l n h
  unfold wordItemsAt at h
  split at h
  next hfront =>
    rw [← Option.some.inj h]
    have hle := hfront.length_le
    rw [wordItems, List.length_map] at hle
    exact ⟨List.length_pos_iff.mpr hne, hle⟩
  next => cases h

@[simp] theorem render_cons (item : Item) (items : List Item) :
    render (item :: items) = item.render ++ render items := rfl

@[simp] theorem render_append (items more : List Item) :
    render (items ++ more) = render items ++ render more := List.flatMap_append

@[simp] theorem render_wordItems (word : Str) : render (wordItems word) = word := by
  induction word with
  | nil => rfl
  | cons ch word ih => exact congrArg (ch :: ·) ih

/-! ## The program writes the text with the colours -/

theorem plain_of_wide : ∀ {ch : UInt8}, 128 ≤ ch → Regex.Plain ch :=
  @(forall_byte (by decide +kernel))

/-- A word stands in front of the rendered text when its bytes stand in front of the text. -/
theorem prefix_render_iff (hwide : ∀ ch ∈ word, 128 ≤ ch) :
    word <+: render items ↔ wordItems word <+: items := by
  induction word generalizing items with
  | nil => exact iff_of_true List.nil_prefix List.nil_prefix
  | cons ch word ih =>
    have hch : 128 ≤ ch := hwide ch List.mem_cons_self
    cases items with
    | nil => simp [render, wordItems]
    | cons item items =>
      cases item with
      | byte c =>
        have hrest : word <+: render items ↔ wordItems word <+: items :=
          ih fun c hc => hwide c (List.mem_cons_of_mem _ hc)
        simp only [render, List.flatMap_cons, Item.render, List.singleton_append, wordItems,
          List.map_cons, List.cons_prefix_cons, Item.byte.injEq] at hrest ⊢
        rw [hrest]
      | on =>
        have hesc : Item.on.render = 27 :: lit "[93m" := by decide
        have hne : ch ≠ 27 := by
          rintro rfl
          exact absurd hch (by decide)
        simp [render, hesc, wordItems, List.cons_prefix_cons, hne]
      | off =>
        have hesc : Item.off.render = 27 :: lit "[39m" := by decide
        have hne : ch ≠ 27 := by
          rintro rfl
          exact absurd hch (by decide)
        simp [render, hesc, wordItems, List.cons_prefix_cons, hne]

/-- Bytes of ASCII are passed over. -/
theorem scan_ascii {f : Str → Str} (hword : Wide word) {front : Str} (hfront : ∀ ch ∈ front, ch < 128)
    (s : Str) :
    scan (Regex.wordAt word) f (front ++ s) = front ++ scan (Regex.wordAt word) f s := by
  have hm := (Regex.scans_literally hword.1).measures
  induction front with
  | nil => rfl
  | cons ch front ih =>
    have hnone : Regex.wordAt word (ch :: (front ++ s)) = none := by
      refine if_neg fun hstands => ?_
      cases word with
      | nil => exact hword.1 rfl
      | cons c word =>
        obtain ⟨rfl, -⟩ := List.cons_prefix_cons.mp hstands
        have hlow := hfront c List.mem_cons_self
        have hhigh := hword.2 c List.mem_cons_self
        exact absurd hlow (UInt8.not_lt.mpr hhigh)
    rw [List.cons_append, scan_of_none hm hnone, ih fun c hc => hfront c (List.mem_cons_of_mem _ hc)]
    rfl

/-- Colouring what is written is writing what is coloured. -/
theorem scan_render (hword : Wide word) (items : List Item) :
    scan (Regex.wordAt word) (fun _ => lit "\x1b[93m" ++ word ++ lit "\x1b[39m") (render items) =
      render (colour word items) := by
  have hm := (Regex.scans_literally hword.1).measures
  have hmarks : (∀ ch ∈ Item.on.render, ch < 128) ∧ ∀ ch ∈ Item.off.render, ch < 128 := by
    decide
  have hnotat : ∀ {items : List Item}, ¬ wordItems word <+: items →
      Regex.wordAt word (render items) = none := fun hnot =>
    if_neg fun h => hnot ((prefix_render_iff hword.2).mp h)
  refine scan_induction (measures_wordItemsAt hword.1) (P := fun items out =>
    scan (Regex.wordAt word) (fun _ => lit "\x1b[93m" ++ word ++ lit "\x1b[39m") (render items) =
      render out) rfl (fun l n hfound ih => ?_) (fun a l hnone ih => ?_) items
  · -- the word stands in front
    unfold wordItemsAt at hfound
    split at hfound
    next hfront =>
      obtain rfl := Option.some.inj hfound
      obtain ⟨rest, rfl⟩ := hfront
      have hlen : (wordItems word).length = word.length := List.length_map _
      have hrender : render (wordItems word ++ rest) = word ++ render rest := by simp
      have hat : Regex.wordAt word (word ++ render rest) = some word.length :=
        if_pos (List.prefix_append word (render rest))
      rw [← hlen, List.drop_left] at ih
      rw [← hlen, List.take_left, List.drop_left, hrender, scan_of_some hm hat, List.drop_left, ih]
      simp only [render_append, render_cons, render_wordItems, List.append_assoc]
      rfl
    next => cases hfound
  · -- no word stands in front
    have hnot : ¬ wordItems word <+: a :: l := fun h => by simp [wordItemsAt, h] at hnone
    cases a with
    | byte ch =>
      have hat : Regex.wordAt word (ch :: render l) = none := hnotat hnot
      have hrender : ∀ l, render (.byte ch :: l) = ch :: render l := fun _ => rfl
      rw [hrender, hrender, scan_of_none hm hat, ih]
    | on => exact (scan_ascii hword hmarks.1 (render l)).trans (congrArg _ ih)
    | off => exact (scan_ascii hword hmarks.2 (render l)).trans (congrArg _ ih)

/-- One step of the program. -/
theorem highlightWord_render (hword : Wide word) (items : List Item) :
    highlightWord (render items) word = .ok (render (colour word items)) := by
  have hplain : ∀ ch ∈ word, Regex.Plain ch := fun ch hch => plain_of_wide (hword.2 ch hch)
  have hfmt : '$'.toUInt8 ∉ lit "\x1b[93m" ++ word ++ lit "\x1b[39m" := by
    have hon : '$'.toUInt8 ∉ lit "\x1b[93m" := by decide
    have hoff : '$'.toUInt8 ∉ lit "\x1b[39m" := by decide
    have hmid : '$'.toUInt8 ∉ word := fun h => absurd (hword.2 _ h) (by decide)
    simp [hon, hoff, hmid]
  unfold highlightWord Regex.new
  rw [Regex.compile_plain hplain]
  dsimp only
  rw [Except.ok_bind, Regex.replace_eq_scan (Regex.scans_literally hword.1) _ hfmt,
    scan_render hword]

/-- **The program writes the text with the colours.** -/
theorem highlight_marked {words : List Str} (hwords : ∀ word ∈ words, Wide word) (desc : Str) :
    highlight words desc = .ok (render (marked words desc)) := by
  have hrun : ∀ items, Run.run highlightWord (render items) words =
      .ok (render (words.foldl (fun items word => colour word items) items)) := by
    induction words with
    | nil => exact fun _ => rfl
    | cons word words ih =>
      intro items
      rw [Run.run_cons, highlightWord_render (hwords word List.mem_cons_self), Except.ok_bind,
        ih fun w hw => hwords w (List.mem_cons_of_mem _ hw)]
      rfl
  have hdesc := hrun (desc.map Item.byte)
  have hrender : render (desc.map Item.byte) = desc := render_wordItems desc
  rwa [hrender] at hdesc

/-! ## What one word does -/

/-- The colouring of a text from byte `p` on with a word, and the places where the word was found. -/
inductive Colours (word : Str) : Nat → List Item → List Item → List Nat → Prop
  | nil (p : Nat) : Colours word p [] [] []
  | on {p : Nat} {items out : List Item} {places : List Nat} (rest : Colours word p items out places) :
    Colours word p (.on :: items) (.on :: out) places
  | off {p : Nat} {items out : List Item} {places : List Nat}
    (rest : Colours word p items out places) : Colours word p (.off :: items) (.off :: out) places
  | byte {p : Nat} {items out : List Item} {places : List Nat} (ch : UInt8)
    (hnot : ¬ wordItems word <+: .byte ch :: items) (rest : Colours word (p + 1) items out places) :
    Colours word p (.byte ch :: items) (.byte ch :: out) places
  | found {p : Nat} {items out : List Item} {places : List Nat}
    (rest : Colours word (p + word.length) items out places) :
    Colours word p (wordItems word ++ items) (.on :: (wordItems word ++ .off :: out)) (p :: places)

theorem colours_colour (hne : word ≠ []) (p : Nat) (items : List Item) :
    ∃ places, Colours word p items (colour word items) places := by
  refine scan_induction (measures_wordItemsAt hne) (P := fun items out =>
    ∀ p, ∃ places, Colours word p items out places) (fun p => ⟨[], Colours.nil p⟩)
    (fun l n hfound ih p => ?_) (fun a l hnone ih p => ?_) items p
  · unfold wordItemsAt at hfound
    split at hfound
    next hfront =>
      obtain rfl := Option.some.inj hfound
      obtain ⟨rest, rfl⟩ := hfront
      have hlen : (wordItems word).length = word.length := List.length_map _
      rw [← hlen, List.take_left, List.drop_left]
      rw [← hlen, List.drop_left] at ih
      obtain ⟨places, hplaces⟩ := ih (p + word.length)
      refine ⟨p :: places, ?_⟩
      simpa using Colours.found hplaces
    next => cases hfound
  · have hnot : ¬ wordItems word <+: a :: l := fun h => by simp [wordItemsAt, h] at hnone
    cases a with
    | byte ch =>
      obtain ⟨places, hplaces⟩ := ih (p + 1)
      exact ⟨places, Colours.byte ch hnot hplaces⟩
    | on =>
      obtain ⟨places, hplaces⟩ := ih p
      exact ⟨places, Colours.on hplaces⟩
    | off =>
      obtain ⟨places, hplaces⟩ := ih p
      exact ⟨places, Colours.off hplaces⟩

namespace Colours

variable {p : Nat} {places : List Nat}

theorem strip_eq (h : Colours word p items out places) : strip out = strip items := by
  induction h with
  | nil p => rfl
  | on rest ih => exact ih
  | off rest ih => exact ih
  | byte ch hnot rest ih => exact congrArg (ch :: ·) ih
  | found rest ih => simp [ih]

theorem le_of_mem (h : Colours word p items out places) : ∀ q ∈ places, p ≤ q := by
  induction h with
  | nil p => simp
  | on rest ih => exact ih
  | off rest ih => exact ih
  | byte ch hnot rest ih => exact fun q hq => Nat.le_of_succ_le (ih q hq)
  | found rest ih =>
    intro q hq
    rcases List.mem_cons.mp hq with rfl | hq
    · exact Nat.le_refl q
    · exact (Nat.le_add_right _ _).trans (ih q hq)

end Colours

/-! ### Where the colours stand -/

/-- The places with a colour in front of the byte, for a text that begins at `p`. -/
def cuts (p : Nat) : List Item → List Nat
  | [] => []
  | .byte _ :: items => cuts (p + 1) items
  | .on :: items | .off :: items => p :: cuts p items

theorem cuts_wordItems (p : Nat) (word : Str) (items : List Item) :
    cuts p (wordItems word ++ items) = cuts (p + word.length) items := by
  induction word generalizing p with
  | nil => rfl
  | cons ch word ih =>
    have hrest := ih (p + 1)
    rw [Nat.add_assoc, Nat.add_comm 1] at hrest
    exact hrest

theorem le_of_mem_cuts {p g : Nat} (h : g ∈ cuts p items) : p ≤ g := by
  induction items generalizing p with
  | nil => cases h
  | cons item items ih =>
    cases item with
    | byte ch => exact Nat.le_of_succ_le (ih h)
    | on =>
      rcases List.mem_cons.mp h with rfl | h
      · exact Nat.le_refl g
      · exact ih h
    | off =>
      rcases List.mem_cons.mp h with rfl | h
      · exact Nat.le_refl g
      · exact ih h

/-- A word puts colours at both ends of each place. -/
theorem Colours.mem_cuts {p g : Nat} {places : List Nat} (h : Colours word p items out places) :
    g ∈ cuts p out ↔ g ∈ cuts p items ∨ ∃ q ∈ places, g = q ∨ g = q + word.length := by
  induction h with
  | nil p => simp [cuts]
  | on rest ih => simp [cuts, ih, or_assoc]
  | off rest ih => simp [cuts, ih, or_assoc]
  | byte ch hnot rest ih => exact ih
  | found rest ih =>
    simp only [cuts, cuts_wordItems, List.mem_cons, ih, exists_eq_or_imp]
    grind

/-- A word whose bytes follow in the text stands side by side when no colour comes between them. -/
theorem prefix_of_uncut {p : Nat} (hfront : word <+: strip items)
    (huncut : ∀ g ∈ cuts p items, p + word.length ≤ g) : wordItems word <+: items := by
  induction items generalizing p word with
  | nil =>
    rw [List.prefix_nil.mp hfront]
    exact List.nil_prefix
  | cons item items ih =>
    cases word with
    | nil => exact List.nil_prefix
    | cons ch word =>
      cases item with
      | byte c =>
        obtain ⟨rfl, hrest⟩ := List.cons_prefix_cons.mp hfront
        refine List.cons_prefix_cons.mpr ⟨rfl, ih (p := p + 1) hrest fun g hg => ?_⟩
        have hle := huncut g hg
        rw [List.length_cons] at hle
        omega
      | on =>
        have hle := huncut p List.mem_cons_self
        rw [List.length_cons] at hle
        omega
      | off =>
        have hle := huncut p List.mem_cons_self
        rw [List.length_cons] at hle
        omega

/-- **Which places are found**: where the word stands, no colour stands inside it, and no place of the
word before reaches into it. -/
theorem Colours.mem_places (hne : word ≠ []) {p q : Nat} {places : List Nat}
    (h : Colours word p items out places) :
    q ∈ places ↔ p ≤ q ∧ word <+: (strip items).drop (q - p) ∧
      (∀ g ∈ cuts p items, q < g → q + word.length ≤ g) ∧
      ∀ q' ∈ places, q' < q → q' + word.length ≤ q := by
  have hpos : 0 < word.length := List.length_pos_iff.mpr hne
  induction h with
  | nil p => simp [hne]
  | on rest ih =>
    refine ih.trans ?_
    refine and_congr_right fun hle => and_congr_right fun _ => and_congr_left fun _ => ?_
    rw [cuts, List.forall_mem_cons]
    exact (and_iff_right fun hlt => absurd hle (Nat.not_le_of_lt hlt)).symm
  | off rest ih =>
    refine ih.trans ?_
    refine and_congr_right fun hle => and_congr_right fun _ => and_congr_left fun _ => ?_
    rw [cuts, List.forall_mem_cons]
    exact (and_iff_right fun hlt => absurd hle (Nat.not_le_of_lt hlt)).symm
  | @byte p items out places ch hnot rest ih =>
    rcases Nat.lt_trichotomy q p with hlt | rfl | hgt
    · exact iff_of_false (fun hmem => absurd (rest.le_of_mem q hmem) (by omega))
        fun h => absurd h.1 (Nat.not_le_of_lt hlt)
    · -- the word is not here, since it would stand side by side
      refine iff_of_false (fun hmem => absurd (rest.le_of_mem q hmem) (by omega)) fun h => ?_
      obtain ⟨-, hfront, huncut, -⟩ := h
      rw [Nat.sub_self, List.drop_zero] at hfront
      refine hnot (prefix_of_uncut (p := q) hfront fun g hg => huncut g hg ?_)
      exact le_of_mem_cuts (p := q + 1) hg
    · have hdrop : q - p = q - (p + 1) + 1 := by omega
      refine ih.trans ?_
      rw [strip_byte, hdrop, List.drop_succ_cons]
      exact and_congr_left fun _ => iff_of_true hgt (Nat.le_of_lt hgt)
  | @found p items out places rest ih =>
    have hlater : ∀ q' ∈ places, p + word.length ≤ q' := rest.le_of_mem
    rw [List.mem_cons, cuts_wordItems, strip_append, strip_wordItems, List.forall_mem_cons]
    refine (or_congr_right ih).trans ?_
    rcases Nat.lt_trichotomy q p with hlt | rfl | hgt
    · exact iff_of_false (fun h => by omega) fun h => by omega
    · refine iff_of_true (Or.inl rfl) ⟨Nat.le_refl q, ?_, fun g hg _ => le_of_mem_cuts hg, ?_, ?_⟩
      · rw [Nat.sub_self, List.drop_zero]
        exact List.prefix_append word _
      · exact fun hlt => absurd hlt (Nat.lt_irrefl q)
      · exact fun q' hq' hlt => absurd (hlater q' hq') (by omega)
    · by_cases hover : q < p + word.length
      · -- the place reaches into the one before
        exact iff_of_false (fun h => by omega) fun h => absurd (h.2.2.2.1 hgt) (by omega)
      · have hdrop : (word ++ strip items).drop (q - p) =
            (strip items).drop (q - (p + word.length)) := by
          rw [List.drop_append, List.drop_eq_nil_of_le (by omega), List.nil_append]
          congr 1
          omega
        rw [hdrop]
        have hne' : q ≠ p := Nat.ne_of_gt hgt
        have hle : p + word.length ≤ q := Nat.le_of_not_lt hover
        simp [hne', hle, Nat.le_of_lt hgt]

/-! ### Colours that match -/

/-- The colours match when there are `d` more to be put off. -/
def Nested : Nat → List Item → Prop
  | d, [] => d = 0
  | d, .byte _ :: items => Nested d items
  | d, .on :: items => Nested (d + 1) items
  | 0, .off :: _ => False
  | d + 1, .off :: items => Nested d items

/-- Byte `i` of the text lies between a colour that is put on and the one that puts it off: what is
between the two matches itself. -/
def Within (items : List Item) (i : Nat) : Prop :=
  ∃ front inner back, items = front ++ .on :: (inner ++ .off :: back) ∧ Nested 0 inner ∧
    (strip front).length ≤ i ∧ i < (strip front).length + (strip inner).length

/-- How many colours are on at each byte. -/
def depths : Nat → List Item → List Nat
  | _, [] => []
  | d, .byte _ :: items => d :: depths d items
  | d, .on :: items => depths (d + 1) items
  | d, .off :: items => depths (d - 1) items

theorem nested_append {e : Nat} {front : List Item} (h : Nested e front) (d : Nat)
    (items : List Item) : Nested (d + e) (front ++ items) ↔ Nested d items := by
  induction front generalizing e with
  | nil =>
    obtain rfl : e = 0 := h
    rfl
  | cons item front ih =>
    cases item with
    | byte ch => exact ih h
    | on => exact ih h
    | off =>
      cases e with
      | zero => cases h
      | succ e => exact ih h

theorem depths_append {e : Nat} {front : List Item} (h : Nested e front) (d : Nat)
    (items : List Item) :
    depths (d + e) (front ++ items) = depths (d + e) front ++ depths d items := by
  induction front generalizing e with
  | nil =>
    obtain rfl : e = 0 := h
    rfl
  | cons item front ih =>
    cases item with
    | byte ch => exact congrArg ((d + e) :: ·) (ih h)
    | on => exact ih h
    | off =>
      cases e with
      | zero => cases h
      | succ e => exact ih h

/-- What matches itself has at least the colours that are on around it. -/
theorem le_of_mem_depths {e d : Nat} (h : Nested e items) : ∀ n ∈ depths (d + e) items, d ≤ n := by
  induction items generalizing e with
  | nil => simp [depths]
  | cons item items ih =>
    cases item with
    | byte ch =>
      intro n hn
      rcases List.mem_cons.mp hn with rfl | hn
      · exact Nat.le_add_right d e
      · exact ih h n hn
    | on => exact ih (e := e + 1) h
    | off =>
      cases e with
      | zero => cases h
      | succ e => exact ih h

theorem length_depths (d : Nat) (items : List Item) :
    (depths d items).length = (strip items).length := by
  induction items generalizing d with
  | nil => rfl
  | cons item items ih =>
    cases item with
    | byte ch => exact congrArg Nat.succ (ih d)
    | on => exact ih (d + 1)
    | off => exact ih (d - 1)

/-- The first colour to be put off is put off somewhere. -/
theorem Nested.split {d : Nat} (h : Nested (d + 1) items) :
    ∃ inner back, items = inner ++ .off :: back ∧ Nested 0 inner ∧ Nested d back := by
  induction hn : items.length using Nat.strongRecOn generalizing d items with
  | ind n ih =>
    cases items with
    | nil => cases h
    | cons item items =>
      have hlt : items.length < n := hn ▸ Nat.lt_succ_self _
      cases item with
      | byte ch =>
        have hrest : Nested (d + 1) items := h
        obtain ⟨inner, back, rfl, hinner, hback⟩ := ih _ hlt hrest rfl
        exact ⟨.byte ch :: inner, back, rfl, hinner, hback⟩
      | off => exact ⟨[], items, rfl, rfl, h⟩
      | on =>
        have hrest : Nested (d + 1 + 1) items := h
        obtain ⟨inner, back, rfl, hinner, hback⟩ := ih _ hlt hrest rfl
        have hshort : back.length < n := by
          simp only [List.length_append, List.length_cons] at hlt
          omega
        obtain ⟨inner', back', rfl, hinner', hback'⟩ := ih _ hshort hback rfl
        refine ⟨.on :: (inner ++ .off :: inner'), back', by simp, ?_, hback'⟩
        exact (nested_append hinner 1 (.off :: inner')).mpr hinner'

theorem exists_depths_append (d : Nat) (front : List Item) :
    ∃ e, ∀ items, depths d (front ++ items) = depths d front ++ depths e items := by
  induction front generalizing d with
  | nil => exact ⟨d, fun _ => rfl⟩
  | cons item front ih =>
    cases item with
    | byte ch =>
      obtain ⟨e, he⟩ := ih d
      exact ⟨e, fun items => congrArg (d :: ·) (he items)⟩
    | on => exact ih (d + 1)
    | off => exact ih (d - 1)

theorem depth_pos_of_within {i : Nat} (h : Within items i) : 0 < (depths 0 items).getD i 0 := by
  obtain ⟨front, inner, back, rfl, hinner, hle, hlt⟩ := h
  obtain ⟨e, he⟩ := exists_depths_append 0 front
  have hdepths : depths e (.on :: (inner ++ .off :: back)) =
      depths (e + 1) inner ++ depths (e + 1) (.off :: back) := depths_append hinner (e + 1) _
  have hi : i - (strip front).length < (depths (e + 1) inner).length := by
    rw [length_depths]
    omega
  rw [he, hdepths, List.getD_append_right _ _ _ _ (by rw [length_depths]; exact hle), length_depths,
    List.getD_append _ _ _ _ hi, List.getD_eq_getElem _ _ hi]
  have hmem := le_of_mem_depths (d := e + 1) hinner _ (List.getElem_mem hi)
  exact Nat.lt_of_lt_of_le (Nat.succ_pos e) hmem

theorem within_of_depth_pos (h : Nested 0 items) {i : Nat} (hi : i < (strip items).length)
    (hdepth : 0 < (depths 0 items).getD i 0) : Within items i := by
  induction hn : items.length using Nat.strongRecOn generalizing items i with
  | ind n ih =>
    cases items with
    | nil => exact absurd hi (Nat.not_lt_zero i)
    | cons item items =>
      have hlt : items.length < n := hn ▸ Nat.lt_succ_self _
      cases item with
      | byte ch =>
        cases i with
        | zero => exact absurd hdepth (Nat.lt_irrefl 0)
        | succ i =>
          have hrest : Nested 0 items := h
          obtain ⟨front, inner, back, rfl, hinner, hle, hend⟩ :=
            ih _ hlt hrest (Nat.lt_of_succ_lt_succ hi) hdepth rfl
          refine ⟨.byte ch :: front, inner, back, rfl, hinner, ?_, ?_⟩
          · exact Nat.succ_le_succ hle
          · rw [strip_byte, List.length_cons]
            omega
      | off => cases h
      | on =>
        have hopen : Nested (0 + 1) items := h
        obtain ⟨inner, back, rfl, hinner, hback⟩ := hopen.split
        by_cases hinside : i < (strip inner).length
        · exact ⟨[], inner, back, rfl, hinner, Nat.zero_le i, by simpa using hinside⟩
        · -- behind the colours that match
          have hdepths : depths 0 (.on :: (inner ++ .off :: back)) = depths 1 inner ++ depths 0 back :=
            depths_append hinner 1 (.off :: back)
          simp only [strip_on, strip_append, strip_off, List.length_append] at hi
          rw [hdepths, List.getD_append_right _ _ _ _ (by rw [length_depths]; omega),
            length_depths] at hdepth
          have hshort : back.length < n := by
            simp only [List.length_append, List.length_cons] at hlt
            omega
          obtain ⟨front, inner', back', rfl, hinner', hle, hend⟩ :=
            ih _ hshort hback (i := i - (strip inner).length) (by omega) hdepth rfl
          refine ⟨.on :: (inner ++ .off :: front), inner', back', by simp, hinner', ?_, ?_⟩
          · simp only [strip_on, strip_append, strip_off, List.length_append]
            omega
          · simp only [strip_on, strip_append, strip_off, List.length_append]
            omega

/-! ### What one word does to them -/

theorem nested_wordItems (d : Nat) (word : Str) (items : List Item) :
    Nested d (wordItems word ++ items) ↔ Nested d items := by
  induction word with
  | nil => rfl
  | cons ch word ih => exact ih

theorem depths_wordItems (d : Nat) (word : Str) (items : List Item) :
    depths d (wordItems word ++ items) = List.replicate word.length d ++ depths d items := by
  induction word with
  | nil => rfl
  | cons ch word ih => exact congrArg (d :: ·) ih

namespace Colours

variable {p : Nat} {places : List Nat}

/-- Colours that match do so with those of one more word. -/
theorem nested (h : Colours word p items out places) {d : Nat} (hnested : Nested d items) :
    Nested d out := by
  induction h generalizing d with
  | nil p => exact hnested
  | on rest ih => exact ih hnested
  | off rest ih =>
    cases d with
    | zero => cases hnested
    | succ d => exact ih hnested
  | byte ch hnot rest ih => exact ih hnested
  | found rest ih =>
    rw [nested_wordItems] at hnested
    exact (nested_wordItems _ _ _).mpr (ih hnested)

/-- A colour is on where one was, and on the places of the word. -/
theorem depth_pos (h : Colours word p items out places) {d i : Nat} (hi : i < (strip items).length) :
    0 < (depths d out).getD i 0 ↔ 0 < (depths d items).getD i 0 ∨
      ∃ q ∈ places, q ≤ p + i ∧ p + i < q + word.length := by
  induction h generalizing d i with
  | nil p => exact absurd hi (Nat.not_lt_zero i)
  | on rest ih => exact ih (d := d + 1) hi
  | off rest ih => exact ih (d := d - 1) hi
  | @byte p items out places ch hnot rest ih =>
    cases i with
    | zero =>
      refine (or_iff_left fun hplace => ?_).symm
      obtain ⟨q, hq, hle, -⟩ := hplace
      exact absurd (rest.le_of_mem q hq) (by omega)
    | succ i =>
      have hrest := ih (d := d) (Nat.lt_of_succ_lt_succ hi)
      rw [Nat.add_assoc, Nat.add_comm 1] at hrest
      exact hrest
  | @found p items out places rest ih =>
    have hout : depths d (.on :: (wordItems word ++ .off :: out)) =
        List.replicate word.length (d + 1) ++ depths d out := depths_wordItems (d + 1) word _
    rw [hout, depths_wordItems]
    by_cases hinside : i < word.length
    · refine iff_of_true ?_ (Or.inr ⟨p, List.mem_cons_self, Nat.le_add_right p i, by omega⟩)
      rw [List.getD_append _ _ _ _ (by simpa using hinside)]
      simp [List.getD_eq_getElem?_getD, hinside]
    · simp only [strip_append, strip_wordItems, List.length_append] at hi
      have hrest := ih (d := d) (i := i - word.length) (by omega)
      have hplace : p + word.length + (i - word.length) = p + i := by omega
      rw [hplace] at hrest
      rw [List.getD_append_right _ _ _ _ (by simp; omega),
        List.getD_append_right _ _ _ _ (by simp; omega), List.length_replicate, List.length_replicate]
      refine hrest.trans (or_congr_right ?_)
      simp only [List.mem_cons, exists_eq_or_imp]
      exact (or_iff_right fun h => by omega).symm

end Colours

/-! ## The free occurrences -/

/-- Word `k` occurs freely at byte `p`: no free occurrence of an earlier word begins or ends inside
the occurrence, and no free occurrence of the word before reaches into it. -/
def Free (desc : Str) (words : List Str) (k p : Nat) : Prop :=
  ∃ word, words[k]? = some word ∧ word <+: desc.drop p ∧
    (∀ j q earlier, j < k → words[j]? = some earlier → Free desc words j q →
      ¬ (p < q ∧ q < p + word.length) ∧
        ¬ (p < q + earlier.length ∧ q + earlier.length < p + word.length)) ∧
    ∀ q, q < p → Free desc words k q → q + word.length ≤ p
termination_by (k, p)

variable {words : List Str} {desc : Str}

/-- The bytes of the free occurrences of the words before `k`. -/
def Covered (desc : Str) (words : List Str) (k i : Nat) : Prop :=
  ∃ j q word, j < k ∧ words[j]? = some word ∧ Free desc words j q ∧ q ≤ i ∧ i < q + word.length

/-- What holds of the text after `k` words. -/
structure Highlighting (desc : Str) (words : List Str) (k : Nat) (items : List Item) : Prop where
  strip : strip items = desc
  nested : Nested 0 items
  cuts : ∀ g, g ∈ cuts 0 items ↔ ∃ j q word, j < k ∧ words[j]? = some word ∧ Free desc words j q ∧
    (g = q ∨ g = q + word.length)
  depths : ∀ i < desc.length, 0 < (depths 0 items).getD i 0 ↔ Covered desc words k i

/-- **The places that are found are the free occurrences.** -/
theorem free_iff_found {k : Nat} (hword : words[k]? = some word) (hne : word ≠ []) {places : List Nat}
    (h : Highlighting desc words k items) (hcolours : Colours word 0 items out places) (p : Nat) :
    p ∈ places ↔ Free desc words k p := by
  induction p using Nat.strongRecOn with
  | ind p ih =>
    rw [hcolours.mem_places hne, Free, h.strip]
    simp only [hword, Option.some.injEq, exists_eq_left', Nat.zero_le, true_and, Nat.sub_zero]
    refine and_congr_right fun _ => and_congr ⟨fun huncut => ?_, fun hfree => ?_⟩ ?_
    · intro j q earlier hj hearlier hq
      have hbegin := huncut q ((h.cuts q).mpr ⟨j, q, earlier, hj, hearlier, hq, Or.inl rfl⟩)
      have hend := huncut (q + earlier.length)
        ((h.cuts _).mpr ⟨j, q, earlier, hj, hearlier, hq, Or.inr rfl⟩)
      omega
    · intro g hg hlt
      obtain ⟨j, q, earlier, hj, hearlier, hq, hgq⟩ := (h.cuts g).mp hg
      have hends := hfree j q earlier hj hearlier hq
      omega
    · refine ⟨fun hbefore q hlt hq => hbefore q ((ih q hlt).mpr hq) hlt, fun hbefore q hq hlt => ?_⟩
      exact hbefore q hlt ((ih q hlt).mp hq)

/-- One more word. -/
theorem Highlighting.next {k : Nat} (hword : words[k]? = some word) (hne : word ≠ [])
    (h : Highlighting desc words k items) : Highlighting desc words (k + 1) (colour word items) := by
  obtain ⟨places, hcolours⟩ := colours_colour hne 0 items
  have hfree := free_iff_found hword hne h hcolours
  refine ⟨hcolours.strip_eq.trans h.strip, hcolours.nested h.nested, fun g => ?_, fun i hi => ?_⟩
  · rw [hcolours.mem_cuts, h.cuts]
    refine ⟨fun hg => ?_, fun hg => ?_⟩
    · rcases hg with ⟨j, q, w, hj, hw, hq, hgq⟩ | ⟨q, hq, hgq⟩
      · exact ⟨j, q, w, Nat.lt_succ_of_lt hj, hw, hq, hgq⟩
      · exact ⟨k, q, word, Nat.lt_succ_self k, hword, (hfree q).mp hq, hgq⟩
    · obtain ⟨j, q, w, hj, hw, hq, hgq⟩ := hg
      rcases Nat.lt_or_eq_of_le (Nat.le_of_lt_succ hj) with hlt | rfl
      · exact Or.inl ⟨j, q, w, hlt, hw, hq, hgq⟩
      · obtain rfl := Option.some.inj (hword.symm.trans hw)
        exact Or.inr ⟨q, (hfree q).mpr hq, hgq⟩
  · rw [hcolours.depth_pos (by rw [h.strip]; exact hi), h.depths i hi]
    simp only [Nat.zero_add]
    refine ⟨fun hg => ?_, fun hg => ?_⟩
    · rcases hg with ⟨j, q, w, hj, hw, hq, hle⟩ | ⟨q, hq, hle⟩
      · exact ⟨j, q, w, Nat.lt_succ_of_lt hj, hw, hq, hle⟩
      · exact ⟨k, q, word, Nat.lt_succ_self k, hword, (hfree q).mp hq, hle⟩
    · obtain ⟨j, q, w, hj, hw, hq, hle⟩ := hg
      rcases Nat.lt_or_eq_of_le (Nat.le_of_lt_succ hj) with hlt | rfl
      · exact Or.inl ⟨j, q, w, hlt, hw, hq, hle⟩
      · obtain rfl := Option.some.inj (hword.symm.trans hw)
        exact Or.inr ⟨q, (hfree q).mpr hq, hle⟩

/-- Before the first word there is no colour. -/
theorem highlighting_start (desc : Str) (words : List Str) :
    Highlighting desc words 0 (desc.map Item.byte) := by
  have hcuts := cuts_wordItems 0 desc []
  have hnested := nested_wordItems 0 desc []
  have hdepths := depths_wordItems 0 desc []
  rw [List.append_nil] at hcuts hnested hdepths
  refine ⟨strip_wordItems desc, hnested.mpr rfl, fun g => ?_, fun i hi => ?_⟩
  · have hnone : cuts 0 (desc.map Item.byte) = [] := hcuts
    simp [hnone]
  · have hzero : depths 0 (desc.map Item.byte) = List.replicate desc.length 0 :=
      hdepths.trans (List.append_nil _)
    simp [hzero, hi, Covered, List.getD_eq_getElem?_getD]

/-- After the first words their free occurrences have a colour. -/
theorem highlighting_marked (hwords : ∀ word ∈ words, Wide word) (desc : Str) {k : Nat}
    (hk : k ≤ words.length) : Highlighting desc words k (marked (words.take k) desc) := by
  induction k with
  | zero => exact highlighting_start desc words
  | succ k ih =>
    have hmarked : marked (words.take (k + 1)) desc =
        colour words[k] (marked (words.take k) desc) := by
      rw [List.take_succ_eq_append_getElem hk, marked, List.foldl_append]
      rfl
    rw [hmarked]
    exact (ih (Nat.le_of_succ_le hk)).next (List.getElem?_eq_getElem hk)
      (hwords _ (List.getElem_mem hk)).1

/-- **Highlighting.** The program writes the text with the colours, and without the colours it is the
text. Every byte of every occurrence of a word is between a colour that is put on and the one that
puts it off exactly when every such byte is in a free occurrence. -/
theorem highlight_complete_iff (desc : Str) (words : List Str) (hwords : ∀ word ∈ words, Wide word) :
    highlight words desc = .ok (render (marked words desc)) ∧ strip (marked words desc) = desc ∧
      ((∀ word ∈ words, ∀ p, word <+: desc.drop p → ∀ i, p ≤ i → i < p + word.length →
          Within (marked words desc) i) ↔
        ∀ word ∈ words, ∀ p, word <+: desc.drop p → ∀ i, p ≤ i → i < p + word.length →
          ∃ j q other, words[j]? = some other ∧ Free desc words j q ∧ q ≤ i ∧
            i < q + other.length) := by
  have hall := highlighting_marked hwords desc (Nat.le_refl words.length)
  rw [List.take_length] at hall
  refine ⟨highlight_marked hwords desc, hall.strip, ?_⟩
  refine forall₂_congr fun word _ => forall₂_congr fun p hfront => forall₃_congr fun i hle hlt => ?_
  have hlen := hfront.length_le
  rw [List.length_drop] at hlen
  have hi : i < desc.length := by omega
  have hwithin : Within (marked words desc) i ↔ Covered desc words words.length i := by
    rw [← hall.depths i hi]
    exact ⟨depth_pos_of_within, within_of_depth_pos hall.nested (by rw [hall.strip]; exact hi)⟩
  rw [hwithin, Covered]
  refine exists₃_congr fun j q other => ⟨fun h => h.2, fun h => ⟨?_, h⟩⟩
  exact (List.getElem?_eq_some_iff.mp h.1).1

/-- The words of the segmenter for three characters, and the three characters. -/
def nation : List Str × Str := ([lit "中国", lit "国人"], lit "中国人")

/-- The second word has its first character in the first word, and its second character gets no
colour. -/
theorem nation_not_complete :
    (∀ word ∈ nation.1, Wide word) ∧
      ¬ ∀ word ∈ nation.1, ∀ p, word <+: nation.2.drop p → ∀ i, p ≤ i → i < p + word.length →
        Within (marked nation.1 nation.2) i := by
  refine ⟨by decide, fun h => ?_⟩
  have hwithin := h (lit "国人") (by decide) 3 (by decide) 6 (by decide)
    (by decide)
  exact absurd (depth_pos_of_within hwithin) (by decide)

theorem highlight_complete_iff_nation :
    highlight nation.1 nation.2 = .ok (render (marked nation.1 nation.2)) ∧
      strip (marked nation.1 nation.2) = nation.2 ∧
      ((∀ word ∈ nation.1, ∀ p, word <+: nation.2.drop p → ∀ i, p ≤ i → i < p + word.length →
          Within (marked nation.1 nation.2) i) ↔
        ∀ word ∈ nation.1, ∀ p, word <+: nation.2.drop p → ∀ i, p ≤ i → i < p + word.length →
          ∃ j q other, nation.1[j]? = some other ∧ Free nation.2 nation.1 j q ∧ q ≤ i ∧
            i < q + other.length) :=
  highlight_complete_iff nation.2 nation.1 (by decide)

end LightSearch.WebPageQuery
