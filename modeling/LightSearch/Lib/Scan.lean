import LightSearch.Lib.Regex

/-!
# Replacing what a scanner finds

A scanner tells for a list whether something begins at its front, and how long it is. `scan` goes
through a list from the left, gives what the scanner finds to a function, goes on behind it, and keeps
the elements where nothing begins.

`regex_replace` is such a scan for a pattern whose preferred match depends on the text behind its
start alone and is never empty (`replace_eq_scan`). A text that stands for itself is such a pattern
(`scans_literally`), and so is a class that repeats (`scans_class`). Replacing the latter with nothing
leaves the characters that are not of the class (`replace_class`).
-/

set_option autoImplicit false

universe u

namespace Scan

variable {α : Type u}

/-- What is found is not empty, and is there. -/
def Measures (m : List α → Option Nat) : Prop := ∀ l n, m l = some n → 0 < n ∧ n ≤ l.length

/-- The scan of a list that is not longer than the first argument. -/
def scanN (m : List α → Option Nat) (f : List α → List α) : Nat → List α → List α
  | 0, _ => []
  | _ + 1, [] => []
  | fuel + 1, a :: l =>
    match m (a :: l) with
    | some n => f ((a :: l).take n) ++ scanN m f fuel ((a :: l).drop n)
    | none => a :: scanN m f fuel l

/-- A list with everything that is found replaced. -/
def scan (m : List α → Option Nat) (f : List α → List α) (l : List α) : List α :=
  scanN m f l.length l

variable {m : List α → Option Nat} {f : List α → List α}

@[simp] theorem scan_nil : scan m f [] = [] := rfl

theorem scanN_eq (hm : Measures m) {fuel : Nat} {l : List α} (h : l.length ≤ fuel) :
    scanN m f fuel l = scan m f l := by
  induction fuel using Nat.strongRecOn generalizing l with
  | ind fuel ih =>
    cases l with
    | nil => cases fuel <;> rfl
    | cons a l =>
      cases fuel with
      | zero => exact absurd h (Nat.not_succ_le_zero _)
      | succ fuel =>
        have hlen : l.length ≤ fuel := Nat.le_of_succ_le_succ h
        rw [scan, List.length_cons, scanN, scanN]
        cases hfound : m (a :: l) with
        | none =>
          dsimp only
          rw [ih fuel (Nat.lt_succ_self _) hlen]
          rfl
        | some n =>
          obtain ⟨hpos, hle⟩ := hm _ _ hfound
          have hdrop : ((a :: l).drop n).length ≤ l.length := by
            rw [List.length_drop, List.length_cons]
            omega
          dsimp only
          rw [ih fuel (Nat.lt_succ_self _) (hdrop.trans hlen)]
          rcases Nat.lt_or_eq_of_le hlen with hlt | heq
          · rw [ih l.length (Nat.lt_succ_of_lt hlt) hdrop]
          · rw [heq, ih fuel (Nat.lt_succ_self _) (hdrop.trans hlen)]

/-- Where something is found. -/
theorem scan_of_some (hm : Measures m) {l : List α} {n : Nat} (h : m l = some n) :
    scan m f l = f (l.take n) ++ scan m f (l.drop n) := by
  obtain ⟨hpos, hle⟩ := hm l n h
  cases l with
  | nil => exact absurd (Nat.lt_of_lt_of_le hpos hle) (Nat.lt_irrefl 0)
  | cons a l =>
    have hdrop : ((a :: l).drop n).length ≤ l.length := by
      rw [List.length_drop, List.length_cons]
      omega
    rw [scan, List.length_cons, scanN, h]
    dsimp only
    rw [scanN_eq hm hdrop]

/-- Where nothing is found. -/
theorem scan_of_none (hm : Measures m) {a : α} {l : List α} (h : m (a :: l) = none) :
    scan m f (a :: l) = a :: scan m f l := by
  rw [scan, List.length_cons, scanN, h]
  dsimp only
  rw [scanN_eq hm (Nat.le_refl _)]

/-- **The rule for scans**: a relation of a list and its result, by what is found at the front. -/
theorem scan_induction (hm : Measures m) {P : List α → List α → Prop} (nil : P [] [])
    (found : ∀ l n, m l = some n → P (l.drop n) (scan m f (l.drop n)) →
      P l (f (l.take n) ++ scan m f (l.drop n)))
    (kept : ∀ a l, m (a :: l) = none → P l (scan m f l) → P (a :: l) (a :: scan m f l))
    (l : List α) : P l (scan m f l) := by
  induction hn : l.length using Nat.strongRecOn generalizing l with
  | ind n ih =>
    cases l with
    | nil => exact nil
    | cons a l =>
      cases h : m (a :: l) with
      | none =>
        rw [scan_of_none hm h]
        exact kept a l h (ih l.length (hn ▸ Nat.lt_succ_self _) l rfl)
      | some k =>
        obtain ⟨hpos, hle⟩ := hm _ _ h
        rw [scan_of_some hm h]
        refine found _ k h (ih _ ?_ _ rfl)
        rw [← hn, List.length_drop]
        omega

/-- Where nothing is found for a while. -/
theorem scan_skip (hm : Measures m) (l : List α) {pos start : Nat} (hle : pos ≤ start)
    (hstart : start ≤ l.length) (h : ∀ q, pos ≤ q → q < start → m (l.drop q) = none) :
    scan m f (l.drop pos) = (l.drop pos).take (start - pos) ++ scan m f (l.drop start) := by
  induction hn : start - pos generalizing pos with
  | zero =>
    obtain rfl : pos = start := by omega
    rfl
  | succ n ih =>
    have hlt : pos < l.length := by omega
    have hnone := h pos (Nat.le_refl pos) (by omega)
    rw [List.drop_eq_getElem_cons hlt] at hnone ⊢
    rw [scan_of_none hm hnone, ih (by omega) (fun q hq => h q (by omega)) (by omega)]
    rfl

end Scan

namespace Regex

open Scan Cxx

/-! ## Replacing with a pattern -/

/-- A pattern whose preferred match from a place on is what the scanner finds in the text from there. -/
structure Scans (r : Regex) (m : Str → Option Nat) : Prop where
  measures : Measures m
  ends : ∀ text pos, pos ≤ text.length →
    (ends text r ⟨pos, []⟩).head?.map Place.pos = (m (text.drop pos)).map (pos + ·)

/-- A format without `$` stands for itself. -/
theorem format_plain (matched : Nat → Str) (before after : Str) {fmt : Str}
    (h : '$'.toUInt8 ∉ fmt) : format matched before after fmt = fmt := by
  induction hn : fmt.length using Nat.strongRecOn generalizing fmt with
  | ind n ih =>
    match fmt with
    | [] => rfl
    | [ch] => rfl
    | ch :: next :: fmt =>
      have hch : ch ≠ '$'.toUInt8 := fun heq => h (heq ▸ List.mem_cons_self)
      have hrest := ih (next :: fmt).length (hn ▸ Nat.lt_succ_self _)
        (fun hmem => h (List.mem_cons_of_mem _ hmem)) rfl
      rw [format.eq_def]
      dsimp only
      rw [if_pos hch, hrest]

/-- What is left when the matches of any pattern are taken away was in the text. -/
theorem mem_of_mem_replace {text : Str} {r : Regex} {ch : UInt8} (h : ch ∈ replace text r []) :
    ch ∈ text := by
  have hfrom : ∀ (found : List (Nat × Place)) (pos : Nat), ch ∈ replaceFrom text [] pos found →
      ch ∈ text := by
    intro found
    induction found with
    | nil => exact fun pos hmem => List.mem_of_mem_drop hmem
    | cons f found ih =>
      intro pos hmem
      rw [replaceFrom, format, List.append_nil] at hmem
      rcases List.mem_append.mp hmem with hpart | hrest
      · exact List.mem_of_mem_drop (List.mem_of_mem_take hpart)
      · exact ih _ hrest
  exact hfrom _ 0 h

variable {r : Regex} {m : Str → Option Nat}

/-- The search finds nothing where the scanner finds nothing. -/
theorem search_eq_none (h : Scans r m) {text : Str} {pos : Nat} (hsearch : search text r pos = none) :
    ∀ q, pos ≤ q → q ≤ text.length → m (text.drop q) = none := by
  intro q hq hle
  have hnone := List.findSome?_eq_none_iff.mp hsearch q (by rw [List.mem_range'_1]; omega)
  have hends := h.ends text q hle
  rw [Option.map_eq_none_iff.mp hnone] at hends
  exact Option.map_eq_none_iff.mp hends.symm

/-- The search finds what the scanner finds first. -/
theorem search_eq_some (h : Scans r m) {text : Str} {pos start : Nat} {p : Place}
    (hsearch : search text r pos = some (start, p)) :
    pos ≤ start ∧ start ≤ text.length ∧ (∀ q, pos ≤ q → q < start → m (text.drop q) = none) ∧
      ∃ n, m (text.drop start) = some n ∧ p.pos = start + n := by
  obtain ⟨before, q, after, hrange, hfound, hbefore⟩ := List.findSome?_eq_some_iff.mp hsearch
  obtain ⟨p', hhead, heq⟩ := Option.map_eq_some_iff.mp hfound
  obtain ⟨rfl, rfl⟩ := Prod.mk.inj heq
  have hmem : q ∈ List.range' pos (text.length + 1 - pos) := by simp [hrange]
  rw [List.mem_range'_1] at hmem
  refine ⟨hmem.1, by omega, fun q' hq' hlt => ?_, ?_⟩
  · have hq'mem : q' ∈ List.range' pos (text.length + 1 - pos) := by
      rw [List.mem_range'_1]
      omega
    have hsorted : (List.range' pos (text.length + 1 - pos)).Pairwise (· < ·) :=
      List.pairwise_lt_range'
    rw [hrange] at hq'mem hsorted
    have hq'before : q' ∈ before := by
      refine (List.mem_append.mp hq'mem).resolve_right fun hafter => ?_
      rcases List.mem_cons.mp hafter with rfl | hafter
      · exact Nat.lt_irrefl q' hlt
      · have hgt := (List.pairwise_cons.mp (List.pairwise_append.mp hsorted).2.1).1 q' hafter
        omega
    have hends := h.ends text q' (by omega)
    rw [Option.map_eq_none_iff.mp (hbefore q' hq'before)] at hends
    exact Option.map_eq_none_iff.mp hends.symm
  · have hends := h.ends text q (by omega)
    rw [hhead] at hends
    obtain ⟨n, hn, hpos⟩ := Option.map_eq_some_iff.mp hends.symm
    exact ⟨n, hn, hpos.symm⟩

/-- **Replacing is scanning.** -/
theorem replace_eq_scan (h : Scans r m) (text : Str) {fmt : Str} (hfmt : '$'.toUInt8 ∉ fmt) :
    replace text r fmt = scan m (fun _ => fmt) text := by
  have hfrom : ∀ fuel pos, pos ≤ text.length → text.length - pos < fuel →
      replaceFrom text fmt pos (iterate text r fuel pos false) =
        scan m (fun _ => fmt) (text.drop pos) := by
    intro fuel
    induction fuel with
    | zero => exact fun pos _ hfuel => absurd hfuel (Nat.not_lt_zero _)
    | succ fuel ih =>
      intro pos hpos hfuel
      rw [iterate]
      simp only [Bool.false_eq_true, ↓reduceIte, Option.orElse_eq_orElse, Option.orElse_none]
      cases hsearch : search text r pos with
      | none =>
        have hskip := scan_skip (f := fun _ => fmt) h.measures text hpos (Nat.le_refl _)
          (fun q hq hlt => search_eq_none h hsearch q hq (Nat.le_of_lt hlt))
        rw [hskip, List.drop_length, scan_nil, List.append_nil, ← List.length_drop, List.take_length]
        rfl
      | some found =>
        obtain ⟨start, p⟩ := found
        obtain ⟨hle, hstart, hbefore, n, hn, hp⟩ := search_eq_some h hsearch
        obtain ⟨hpos', hlen⟩ := h.measures _ _ hn
        rw [List.length_drop] at hlen
        have hmoved : decide (start = p.pos) = false := decide_eq_false (by omega)
        have hrest := ih p.pos (by omega) (by omega)
        dsimp only
        rw [hmoved, replaceFrom, format_plain _ _ _ hfmt, hrest,
          scan_skip h.measures text hle hstart hbefore, scan_of_some h.measures hn, List.drop_drop, hp,
          part, List.append_assoc]
  exact hfrom _ 0 (Nat.zero_le _) (by omega)

/-! ## Two patterns -/

/-- What the scanner for a text finds: the text. -/
def wordAt (word : Str) (s : Str) : Option Nat := if word <+: s then some word.length else none

theorem ends_literally (text word : Str) (p : Place) :
    ends text (literally word) p =
      if word <+: text.drop p.pos then [p.moved (p.pos + word.length)] else [] := by
  induction word generalizing p with
  | nil => simp [literally, ends, Place.moved]
  | cons ch word ih =>
    rw [literally, ends, ends]
    cases hget : text[p.pos]? with
    | none =>
      have hdrop : text.drop p.pos = [] := List.drop_eq_nil_of_le (List.getElem?_eq_none_iff.mp hget)
      simp [hdrop]
    | some c =>
      obtain ⟨hlt, hc⟩ := List.getElem?_eq_some_iff.mp hget
      rw [List.drop_eq_getElem_cons hlt, hc]
      by_cases hch : c = ch
      · simp [hch, ih, Place.moved, Nat.add_assoc, Nat.add_comm 1]
      · simp [hch, Ne.symm hch, List.cons_prefix_cons]

/-- **A text that is not empty**, as a pattern for itself. -/
theorem scans_literally {word : Str} (hne : word ≠ []) : Scans (literally word) (wordAt word) where
  measures := by
    intro l n h
    unfold wordAt at h
    split at h
    next hfront =>
      rw [← Option.some.inj h]
      exact ⟨List.length_pos_iff.mpr hne, hfront.length_le⟩
    next => cases h
  ends := by
    intro text pos _
    rw [ends_literally, wordAt]
    split
    · simp [Place.moved]
    · rfl

/-- A class with a plus behind it. -/
def classPlus (test : UInt8 → Bool) : Regex := seq (times true 1 none (one test)) empty

/-- What the scanner for a class finds: all its characters in front. -/
def runAt (test : UInt8 → Bool) (s : Str) : Option Nat :=
  if s.takeWhile test = [] then none else some (s.takeWhile test).length

/-- One character of the class, as the repetition asks for it. -/
theorem ends_one (text : Str) (test : UInt8 → Bool) (pos : Nat) :
    ends text (one test) ⟨pos, []⟩ =
      if ((text.drop pos).takeWhile test) = [] then [] else [⟨pos + 1, []⟩] := by
  rw [ends]
  dsimp only
  cases hget : text[pos]? with
  | none =>
    have hdrop : text.drop pos = [] := List.drop_eq_nil_of_le (List.getElem?_eq_none_iff.mp hget)
    rw [hdrop]
    rfl
  | some ch =>
    obtain ⟨hlt, rfl⟩ := List.getElem?_eq_some_iff.mp hget
    rw [List.drop_eq_getElem_cons hlt, List.takeWhile_cons]
    dsimp only
    split
    · rw [if_neg (List.cons_ne_nil _ _)]
      rfl
    · rw [if_pos rfl]

/-- The characters of a class from a place on, one more than from the next place. -/
theorem length_run {text : Str} {test : UInt8 → Bool} {pos : Nat}
    (h : (text.drop pos).takeWhile test ≠ []) :
    ((text.drop pos).takeWhile test).length = ((text.drop (pos + 1)).takeWhile test).length + 1 := by
  have hlt : pos < text.length := by
    by_contra hle
    rw [List.drop_eq_nil_of_le (Nat.le_of_not_lt hle)] at h
    exact h rfl
  rw [List.drop_eq_getElem_cons hlt, List.takeWhile_cons] at h ⊢
  split
  · rfl
  · next htest =>
    rw [if_neg htest] at h
    exact absurd rfl h

/-- The repetition goes to the end of the class first. -/
theorem head_upTo {text : Str} {test : UInt8 → Bool} (step : Place → List Place)
    (hstep : ∀ pos, step ⟨pos, []⟩ = ends text (one test) ⟨pos, []⟩) {n pos : Nat}
    (hn : ((text.drop pos).takeWhile test).length ≤ n) :
    (upTo true step n ⟨pos, []⟩).head? = some ⟨pos + ((text.drop pos).takeWhile test).length, []⟩ := by
  induction n generalizing pos with
  | zero =>
    rw [Nat.le_zero.mp hn]
    rfl
  | succ n ih =>
    rw [upTo]
    simp only [hstep, ends_one, ↓reduceIte]
    split
    · next hnone =>
      rw [hnone]
      rfl
    · next hsome =>
      have hlen := length_run hsome
      have hhead := ih (show ((text.drop (pos + 1)).takeWhile test).length ≤ n by omega)
      have hmoved : [(⟨pos + 1, []⟩ : Place)].filter (fun q => pos < q.pos) = [⟨pos + 1, []⟩] := by
        simp
      rw [hmoved, List.flatMap_singleton, List.head?_append, hhead, hlen, Nat.add_assoc, Nat.add_comm 1]
      rfl

/-- **A class that repeats.** -/
theorem scans_class (test : UInt8 → Bool) : Scans (classPlus test) (runAt test) where
  measures := by
    intro l n h
    unfold runAt at h
    split at h
    · cases h
    · next hne =>
      obtain rfl := Option.some.inj h
      exact ⟨List.length_pos_iff.mpr hne, (List.takeWhile_sublist _).length_le⟩
  ends := by
    intro text pos _
    have hfirst : ∀ ps : List Place, ps.flatMap (ends text empty) = ps := fun ps => by
      simp [ends]
    rw [classPlus, ends, hfirst, ends, runAt]
    simp only [exactly, groups, List.filter_nil, ends_one]
    split
    · rfl
    · next hsome =>
      have hlen := length_run hsome
      have hle : ((text.drop (pos + 1)).takeWhile test).length ≤ text.length := by
        refine (List.takeWhile_sublist test).length_le.trans ?_
        rw [List.length_drop]
        exact Nat.sub_le _ _
      have hhead := head_upTo (fun q => ends text (one test)
        { q with groups := q.groups.filter fun g => g.1 ∉ groups (one test) }) (fun _ => rfl) hle
      simp only [groups] at hhead
      rw [List.flatMap_singleton, List.flatMap_singleton, hhead, hlen, Option.map_some,
        Option.map_some, Nat.add_assoc, Nat.add_comm 1]

/-- **Replacing a class that repeats with nothing** takes its characters away. -/
theorem replace_class (test : UInt8 → Bool) (text : Str) :
    replace text (classPlus test) [] = text.filter fun ch => !test ch := by
  rw [replace_eq_scan (scans_class test) text (fun hmem => absurd hmem List.not_mem_nil)]
  refine scan_induction (scans_class test).measures (P := fun l r => r = l.filter fun ch => !test ch)
    rfl ?_ ?_ text
  · intro l n hfound hrest
    unfold runAt at hfound
    split at hfound
    · cases hfound
    · obtain rfl := Option.some.inj hfound
      have hsplit : l.takeWhile test ++ l.dropWhile test = l := List.takeWhile_append_dropWhile
      have hdrop : l.dropWhile test = l.drop (l.takeWhile test).length := by
        have htail := congrArg (List.drop (l.takeWhile test).length) hsplit
        rwa [List.drop_left] at htail
      have hnone : (l.takeWhile test).filter (fun ch => !test ch) = [] :=
        List.filter_eq_nil_iff.mpr fun ch hch => by simp [List.mem_takeWhile_imp hch]
      have hfilter := congrArg (List.filter fun ch => !test ch) hsplit
      rw [List.filter_append, hnone, List.nil_append, hdrop] at hfilter
      rw [hrest, List.nil_append, hfilter]
  · intro ch l hnone hrest
    have htest : test ch = false := by
      unfold runAt at hnone
      rw [List.takeWhile_cons] at hnone
      cases hch : test ch with
      | false => rfl
      | true => simp [hch] at hnone
    rw [hrest, List.filter_cons_of_pos (by rw [htest]; rfl)]

end Regex
