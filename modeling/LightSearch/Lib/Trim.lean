import Mathlib.Data.List.DropRight
import LightSearch.Lib.Cxx

/-!
# White space at the ends of a text

`trim` is a text without the white space at its ends, whatever white space that was
(`trim_surround`). The first word of a text is what `>>` extracts, and the text is then white space,
the word, and a rest that begins with white space if it has anything (`extract_eq_some`). Trimming a
text keeps its first word, and trims the rest behind it (`extract_trim`).
-/

set_option autoImplicit false

namespace Cxx

/-- A text without the white space at its ends. -/
def trim (s : Str) : Str := (s.dropWhile isspace).rdropWhile isspace

/-- A text of white space. -/
def Blank (s : Str) : Prop := ∀ ch ∈ s, isspace ch = true

instance (s : Str) : Decidable (Blank s) := inferInstanceAs (Decidable (∀ _ ∈ _, _))

/-- A text that begins with white space, if it has anything. -/
def Apart (s : Str) : Prop := ∀ ch ∈ s.head?, isspace ch = true

theorem blank_nil : Blank [] := fun _ h => absurd h List.not_mem_nil

theorem Blank.apart {s : Str} (h : Blank s) : Apart s :=
  fun ch hch => h ch (List.mem_of_mem_head? hch)

theorem Apart.append {s t : Str} (hs : Apart s) (ht : Apart t) : Apart (s ++ t) := by
  cases s with
  | nil => exact ht
  | cons ch s => exact hs

theorem rdropWhile_append (s t : Str) :
    (s ++ t).rdropWhile isspace =
      if t.rdropWhile isspace = [] then s.rdropWhile isspace else s ++ t.rdropWhile isspace := by
  unfold List.rdropWhile
  rw [List.reverse_append, List.dropWhile_append]
  by_cases h : t.reverse.dropWhile isspace = []
  · simp [h]
  · simp [h]

/-- The two ends are trimmed in any order. -/
theorem dropWhile_rdropWhile (s : Str) :
    (s.rdropWhile isspace).dropWhile isspace = (s.dropWhile isspace).rdropWhile isspace := by
  induction s with
  | nil => rfl
  | cons ch s ih =>
    rw [← List.singleton_append, rdropWhile_append, List.rdropWhile_singleton]
    by_cases hch : isspace ch = true
    · by_cases hs : s.rdropWhile isspace = []
      · simp [hch, hs, ← ih]
      · simp [hch, hs, ih]
    · have hkept : ([ch] ++ s).dropWhile isspace = [ch] ++ s := List.dropWhile_cons_of_neg hch
      rw [hkept, rdropWhile_append, List.rdropWhile_singleton]
      by_cases hs : s.rdropWhile isspace = []
      · simp [hch, hs]
      · simp [hch, hs]

theorem trim_rdropWhile (s : Str) : trim (s.rdropWhile isspace) = trim s := by
  unfold trim
  rw [dropWhile_rdropWhile, List.rdropWhile_idempotent]

/-- White space around a text is trimmed away. -/
theorem trim_surround {front back : Str} (hfront : Blank front) (hback : Blank back) (s : Str) :
    trim (front ++ (s ++ back)) = trim s := by
  have hnil : back.rdropWhile isspace = [] := List.rdropWhile_eq_nil_iff.mpr hback
  rw [← trim_rdropWhile s, ← trim_rdropWhile (front ++ (s ++ back)), ← List.append_assoc,
    rdropWhile_append, if_pos hnil, trim_rdropWhile, trim_rdropWhile]
  unfold trim
  rw [List.dropWhile_append_of_pos hfront]

theorem trim_eq_nil_iff {s : Str} : trim s = [] ↔ Blank s := by
  unfold trim
  rw [← dropWhile_rdropWhile]
  constructor
  · intro h
    have hspaces := List.dropWhile_eq_nil_iff.mp h
    apply List.rdropWhile_eq_nil_iff.mp
    by_contra hne
    exact List.rdropWhile_last_not isspace s hne (hspaces _ (List.getLast_mem hne))
  · intro h
    rw [List.rdropWhile_eq_nil_iff.mpr h]
    rfl

/-! ## The first word -/

/-- **What `>>` extracts**: the white space in front is gone, and the word ends where white space or
the end of the text follows. -/
theorem extract_eq_some {s word rest : Str} :
    extract s = some (word, rest) ↔
      ∃ front, s = front ++ (word ++ rest) ∧ Blank front ∧ Word word ∧ Apart rest := by
  constructor
  · intro h
    have hsplit := List.takeWhile_append_dropWhile (p := isspace) (l := s)
    have hfront : Blank (s.takeWhile isspace) := fun ch hch => List.mem_takeWhile_imp hch
    unfold extract at h
    split at h
    · cases h
    · next ch t hdrop =>
      obtain ⟨rfl, rfl⟩ := Prod.mk.inj (Option.some.inj h)
      have hch : isspace ch = false := by
        have hhead := List.head?_dropWhile_not isspace s
        simpa [hdrop] using hhead
      refine ⟨s.takeWhile isspace, ?_, hfront, ⟨?_, fun b hb => ?_⟩, fun b hb => ?_⟩
      · rw [List.takeWhile_append_dropWhile, ← hdrop, hsplit]
      · simp [hch]
      · simpa using List.mem_takeWhile_imp hb
      · have hhead := List.head?_dropWhile_not (fun ch => !isspace ch) (ch :: t)
        rw [Option.mem_def.mp hb] at hhead
        simpa using hhead
  · rintro ⟨front, rfl, hfront, ⟨hne, hword⟩, hrest⟩
    obtain ⟨ch, t, rfl⟩ := List.exists_cons_of_ne_nil hne
    have hnot : ∀ b ∈ ch :: t, (!isspace b) = true := fun b hb => by simp [hword b hb]
    have hdrop : (front ++ (ch :: t ++ rest)).dropWhile isspace = ch :: (t ++ rest) := by
      rw [List.dropWhile_append_of_pos hfront, List.cons_append,
        List.dropWhile_cons_of_neg (by simp [hword ch List.mem_cons_self])]
    unfold extract
    rw [hdrop]
    dsimp only
    rw [← List.cons_append, List.takeWhile_append_of_pos hnot, List.dropWhile_append_of_pos hnot]
    cases rest with
    | nil => simp
    | cons b rest =>
      have hb : isspace b = true := hrest b rfl
      simp [hb]

/-- A text has no first word when it is white space. -/
theorem extract_eq_none {s : Str} : extract s = none ↔ Blank s := by
  unfold extract Blank
  rw [← List.dropWhile_eq_nil_iff]
  cases s.dropWhile isspace with
  | nil => simp
  | cons ch t => simp

/-- **Trimming keeps the first word**, and trims the end of what follows it. -/
theorem extract_trim {s word rest : Str} (h : extract s = some (word, rest)) :
    trim s = word ++ rest.rdropWhile isspace ∧
      extract (trim s) = some (word, rest.rdropWhile isspace) := by
  obtain ⟨front, rfl, hfront, hword, hrest⟩ := extract_eq_some.mp h
  have hlast : word.rdropWhile isspace = word := by
    apply List.rdropWhile_eq_self_iff.mpr
    intro hne
    simp [hword.2 _ (List.getLast_mem hne)]
  have htrim : trim (front ++ (word ++ rest)) = word ++ rest.rdropWhile isspace := by
    obtain ⟨ch, t, rfl⟩ := List.exists_cons_of_ne_nil hword.1
    have hdrop : (front ++ (ch :: t ++ rest)).dropWhile isspace = ch :: t ++ rest := by
      rw [List.dropWhile_append_of_pos hfront, List.cons_append,
        List.dropWhile_cons_of_neg (by simp [hword.2 ch List.mem_cons_self])]
    unfold trim
    rw [hdrop, rdropWhile_append]
    split
    · next hnil => rw [hlast, hnil, List.append_nil]
    · rfl
  refine ⟨htrim, ?_⟩
  rw [htrim]
  apply extract_eq_some.mpr
  refine ⟨[], rfl, blank_nil, hword, fun ch hch => ?_⟩
  obtain ⟨t, ht⟩ := List.rdropWhile_prefix isspace rest
  apply hrest
  rw [← ht]
  cases hr : rest.rdropWhile isspace with
  | nil => simp [hr] at hch
  | cons b r => rwa [hr] at hch

end Cxx
