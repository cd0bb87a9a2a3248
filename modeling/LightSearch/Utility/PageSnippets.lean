import LightSearch.Lib.Utf8
import LightSearch.Utility.PageWindows

/-!
# When a snippet is a text

The trimming of a window looks at two bytes at each end and takes every character for one of three
bytes, or of one. In front it cuts two bytes unless one of the first two begins a character of three
bytes or four, so the third byte has to begin a character (`FrontWhole`). At the end it cuts the
beginning of a character of three bytes or four up to its second byte. The beginning of a character of
two bytes stays, as do three bytes of four (`EndWhole`).

A text that is not `Cuttable` ends the program.
-/

set_option autoImplicit false

namespace LightSearch.WebPageQuery

open Cxx Utf8

/-! ## The trimming as a cut -/

/-- How many bytes are cut in front. -/
def frontCut (tmp : Str) : Nat :=
  if isLead (tmp.getD 0 0) then 0 else if isLead (tmp.getD 1 0) then 1 else 2

/-- How many bytes are cut at the end. -/
def backCut (tmp : Str) : Nat :=
  if isLead (tmp.getD (tmp.length - 1) 0) then 1
  else if isLead (tmp.getD (tmp.length - 2) 0) then 2 else 0

theorem trimFront_eq {tmp : Str} (h : 2 ≤ tmp.length) :
    trimFront tmp = .ok (tmp.drop (frontCut tmp)) := by
  have hfirst : charAt tmp 0 = .ok (tmp.getD 0 0) := if_pos (Nat.zero_le _)
  have hsecond : charAt tmp 1 = .ok (tmp.getD 1 0) := if_pos (Nat.le_of_lt h)
  have hsub : ∀ n, n ≤ 2 → substr tmp n tmp.length = .ok (tmp.drop n) := by
    intro n hn
    rw [substr, if_pos (Nat.le_trans hn h), List.take_of_length_le (by simp)]
  unfold trimFront frontCut
  rw [hfirst, Except.ok_bind, hsecond]
  split
  · rfl
  · rw [Except.ok_bind]
    split
    · exact hsub 1 (by decide)
    · exact hsub 2 (by decide)

theorem trimBack_eq {tmp : Str} (h : 2 ≤ tmp.length) :
    trimBack tmp = .ok (tmp.take (tmp.length - backCut tmp)) := by
  have hback : ∀ back, back ≤ 2 → charBack tmp back = .ok (tmp.getD (tmp.length - back) 0) := by
    intro back hback
    rw [charBack, if_pos (Nat.le_trans hback h), charAt, if_pos (Nat.sub_le _ _)]
  have hsub : ∀ n, substr tmp 0 n = .ok (tmp.take n) := fun n => if_pos (Nat.zero_le _)
  unfold trimBack backCut
  rw [hback 1 (by decide), hback 2 (by decide), Except.ok_bind, hsub, Except.ok_bind, hsub]
  split
  · rfl
  · split
    · rfl
    · rw [Nat.sub_zero, List.take_length]

/-! ## The bytes of a text -/

variable {cs : List Char} {i : Nat}

/-- The mask is that of the bytes from `0xe0` on. -/
theorem isLead_byte : ∀ ch : UInt8, isLead ch = decide (224 ≤ ch.toNat) := forall_byte (by decide +kernel)

theorem isLead_of_continuation (ch : UInt8) (h : Continuation ch) : isLead ch = false := by
  obtain ⟨-, hhigh⟩ := h
  simp only [UInt8.lt_iff_toNat_lt, UInt8.reduceToNat] at hhigh
  rw [isLead_byte, decide_eq_false_iff_not]
  omega

theorem isLead_of_lead {size : Nat} {ch : UInt8} (hsize : 1 ≤ size ∧ size ≤ 4) (h : Lead size ch) :
    isLead ch = true ↔ 3 ≤ size := by
  have hcases := lead_cases h
  rw [isLead_byte, decide_eq_true_iff]
  omega

/-- Behind a lead byte stand the other bytes of its character. -/
theorem lead_at {n : Nat} (hn : 1 ≤ n ∧ n ≤ 4) (h : i < (encode cs).length)
    (hlead : Lead n ((encode cs).getD i 0)) :
    i + n ≤ (encode cs).length ∧
      ∀ j, 0 < j → j < n → Continuation ((encode cs).getD (i + j) 0) := by
  obtain ⟨size, offset, hone, hfour, hoffset, hle, hend, hlead', htail, -⟩ := char_at h
  rcases Nat.eq_zero_or_pos offset with rfl | hpos
  · obtain rfl := lead_unique hn ⟨hone, hfour⟩ hlead hlead'
    exact ⟨hend, htail⟩
  · have hmem := htail offset hpos hoffset
    rw [Nat.sub_add_cancel hle] at hmem
    exact absurd hmem (not_continuation_of_lead hlead)

/-- What `isLead` finds is the beginning of a character of three bytes or four. -/
theorem isLead_at (h : i < (encode cs).length) (hlead : isLead ((encode cs).getD i 0) = true) :
    Boundary cs i ∧ i + 3 ≤ (encode cs).length ∧ Continuation ((encode cs).getD (i + 1) 0) ∧
      Continuation ((encode cs).getD (i + 2) 0) := by
  obtain ⟨size, offset, hone, hfour, hoffset, hle, hend, hlead', htail, hboundary⟩ := char_at h
  rcases Nat.eq_zero_or_pos offset with rfl | hpos
  · have hthree := (isLead_of_lead ⟨hone, hfour⟩ hlead').mp hlead
    exact ⟨hboundary.mpr rfl, by omega, htail 1 (by decide) (by omega), htail 2 (by decide) (by omega)⟩
  · have hmem := htail offset hpos hoffset
    rw [Nat.sub_add_cancel hle] at hmem
    rw [isLead_of_continuation _ hmem] at hlead
    cases hlead

/-- The front of a window from `s` on is cut at a boundary. -/
def FrontWhole (desc : Str) (s : Nat) : Prop :=
  isLead (desc.getD s 0) = true ∨ isLead (desc.getD (s + 1) 0) = true ∨
    ¬ Continuation (desc.getD (s + 2) 0)

/-- The end of a window up to `t` is cut at a boundary. -/
def EndWhole (desc : Str) (t : Nat) : Prop :=
  ¬ Lead 2 (desc.getD (t - 1) 0) ∧ ¬ Lead 4 (desc.getD (t - 3) 0)

/-- A place is a boundary when none of the characters that `isLead` does not find reaches over it. -/
theorem boundary_iff_endWhole {t : Nat} (hthree : 3 ≤ t) (ht : t ≤ (encode cs).length)
    (hlast : isLead ((encode cs).getD (t - 1) 0) = false)
    (hbefore : isLead ((encode cs).getD (t - 2) 0) = false) :
    Boundary cs t ↔ EndWhole (encode cs) t := by
  refine ⟨fun h => ⟨fun htwo => ?_, fun hfour => ?_⟩, fun h => ?_⟩
  · obtain ⟨hend, hnext⟩ := lead_at (by decide) (by omega) htwo
    have hmem := hnext 1 (by decide) (by decide)
    rw [Nat.sub_add_cancel (by omega)] at hmem
    exact (boundary_iff (by omega)).mp h hmem
  · obtain ⟨hend, hnext⟩ := lead_at (by decide) (by omega) hfour
    have hmem := hnext 3 (by decide) (by decide)
    rw [Nat.sub_add_cancel hthree] at hmem
    exact (boundary_iff (by omega)).mp h hmem
  · rcases Nat.lt_or_eq_of_le ht with hlt | rfl
    · obtain ⟨size, offset, hone, hfour, hoffset, hle, hend, hlead, -, hboundary⟩ := char_at hlt
      rw [hboundary]
      have hfind := isLead_of_lead ⟨hone, hfour⟩ hlead
      by_contra hne
      have hcases : offset = 1 ∨ offset = 2 ∨ offset = 3 := by omega
      rcases hcases with rfl | rfl | rfl
      · rw [hlast] at hfind
        obtain rfl : size = 2 := by simp at hfind; omega
        exact h.1 hlead
      · rw [hbefore] at hfind
        simp at hfind
        omega
      · obtain rfl : size = 4 := by omega
        exact h.2 hlead
    · exact boundary_length cs

/-! ## The ends of a snippet -/

theorem getD_drop (desc : Str) (s j : Nat) : (desc.drop s).getD j 0 = desc.getD (s + j) 0 := by
  simp [List.getD_eq_getElem?_getD]

theorem getD_take {desc : Str} {t j : Nat} (h : j < t) : (desc.take t).getD j 0 = desc.getD j 0 := by
  simp [List.getD_eq_getElem?_getD, h]

/-- The front of a window is cut at a boundary exactly when it is whole. -/
theorem boundary_front_iff {s : Nat} (hs : s + 3 ≤ (encode cs).length) :
    Boundary cs (s + frontCut ((encode cs).drop s)) ↔ FrontWhole (encode cs) s := by
  unfold FrontWhole frontCut
  rw [getD_drop, getD_drop, Nat.add_zero]
  by_cases hfirst : isLead ((encode cs).getD s 0) = true
  · rw [if_pos hfirst]
    exact iff_of_true (isLead_at (by omega) hfirst).1 (Or.inl hfirst)
  · rw [if_neg hfirst]
    by_cases hsecond : isLead ((encode cs).getD (s + 1) 0) = true
    · rw [if_pos hsecond]
      exact iff_of_true (isLead_at (by omega) hsecond).1 (Or.inr (Or.inl hsecond))
    · rw [if_neg hsecond, boundary_iff (by omega)]
      simp only [hfirst, hsecond, Bool.false_eq_true, false_or]

/-- The end of a window is cut at a boundary exactly when it is whole. -/
theorem boundary_back_iff {t : Nat} (hthree : 3 ≤ t) (ht : t ≤ (encode cs).length) :
    Boundary cs (t - backCut ((encode cs).take t)) ↔ EndWhole (encode cs) t := by
  have hfour : Lead 4 ((encode cs).getD (t - 3) 0) → ∀ j, 0 < j → j < 4 →
      isLead ((encode cs).getD (t - 3 + j) 0) = false := fun hlead j hpos hj =>
    isLead_of_continuation _ ((lead_at (by decide) (by omega) hlead).2 j hpos hj)
  have htwo : ∀ {ch : UInt8}, Lead 2 ch → isLead ch = false := fun {ch} hlead =>
    Bool.eq_false_iff.mpr fun h => absurd ((isLead_of_lead (by decide) hlead).mp h) (by decide)
  unfold backCut
  rw [List.length_take_of_le ht, getD_take (by omega), getD_take (by omega)]
  by_cases hlast : isLead ((encode cs).getD (t - 1) 0) = true
  · rw [if_pos hlast]
    refine iff_of_true (isLead_at (by omega) hlast).1 ⟨fun h => ?_, fun h => ?_⟩
    · rw [htwo h] at hlast
      cases hlast
    · have hlast' := hfour h 2 (by decide) (by decide)
      rw [show t - 3 + 2 = t - 1 by omega, hlast] at hlast'
      cases hlast'
  · rw [if_neg hlast]
    by_cases hbefore : isLead ((encode cs).getD (t - 2) 0) = true
    · obtain ⟨hboundary, -, hnext, -⟩ := isLead_at (by omega) hbefore
      rw [if_pos hbefore]
      refine iff_of_true hboundary ⟨fun h => ?_, fun h => ?_⟩
      · rw [show t - 2 + 1 = t - 1 by omega] at hnext
        exact not_continuation_of_lead h hnext
      · have hbefore' := hfour h 1 (by decide) (by decide)
        rw [show t - 3 + 1 = t - 2 by omega, hbefore] at hbefore'
        cases hbefore'
    · rw [if_neg hbefore]
      exact boundary_iff_endWhole hthree ht (Bool.eq_false_iff.mpr hlast)
        (Bool.eq_false_iff.mpr hbefore)

/-! ## The snippet -/

theorem frontCut_le (tmp : Str) : frontCut tmp ≤ 2 := by
  unfold frontCut
  split
  · decide
  · split <;> decide

theorem backCut_le (tmp : Str) : backCut tmp ≤ 2 := by
  unfold backCut
  split
  · decide
  · split <;> decide

/-- A snippet as a part of the description, when the window from `s` to `t` is not too short. -/
theorem snippet_eq {desc : Str} {elem : Int} (helem : elem ≤ desc.length) {s t : Nat}
    (hs : windowStart elem = s) (ht : min (s + 120) desc.length = t) (hlong : s + 4 ≤ t) :
    snippet desc elem = .ok ((desc.drop (s + frontCut (desc.drop s))).take
      (t - backCut (desc.take t) - (s + frontCut (desc.drop s)))) := by
  have hwindow : (desc.drop s).take 120 = (desc.drop s).take (t - s) := by
    rw [List.take_eq_take_iff, List.length_drop]
    omega
  have hlen : ((desc.drop s).take (t - s)).length = t - s := by
    rw [List.length_take, List.length_drop]
    omega
  have hfront : frontCut ((desc.drop s).take (t - s)) = frontCut (desc.drop s) := by
    unfold frontCut
    rw [getD_take (by omega), getD_take (by omega)]
  have ha := frontCut_le (desc.drop s)
  have hdrop : ((desc.drop s).take (t - s)).drop (frontCut (desc.drop s)) =
      (desc.drop (s + frontCut (desc.drop s))).take (t - s - frontCut (desc.drop s)) := by
    rw [List.drop_take, List.drop_drop]
  have hlen' : ((desc.drop (s + frontCut (desc.drop s))).take
      (t - s - frontCut (desc.drop s))).length = t - s - frontCut (desc.drop s) := by
    rw [List.length_take, List.length_drop]
    omega
  have hback : backCut ((desc.drop (s + frontCut (desc.drop s))).take
      (t - s - frontCut (desc.drop s))) = backCut (desc.take t) := by
    have htake : (desc.take t).length = t := List.length_take_of_le (by omega)
    have hplace : ∀ j, 0 < j → j ≤ 2 → s + frontCut (desc.drop s) +
        (t - s - frontCut (desc.drop s) - j) = t - j := fun j hpos hj => by omega
    unfold backCut
    rw [hlen', htake, getD_take (by omega), getD_take (by omega), getD_take (by omega),
      getD_take (by omega), getD_drop, getD_drop, hplace 1 (by decide) (by decide),
      hplace 2 (by decide) (by decide)]
  unfold snippet
  rw [window_eq helem, hs, hwindow, Except.ok_bind, trimFront_eq (by omega), Except.ok_bind, hfront,
    hdrop, trimBack_eq (by omega), hlen', hback, List.take_take]
  congr 2
  omega

/-- Nothing is cut at the end of a text. -/
theorem backCut_encode (h : 2 ≤ (encode cs).length) : backCut (encode cs) = 0 := by
  have hnone : ∀ j, 0 < j → j ≤ 2 →
      ¬ isLead ((encode cs).getD ((encode cs).length - j) 0) = true := by
    intro j hpos hj hlead
    have hend := (isLead_at (by omega) hlead).2.1
    omega
  rw [backCut, if_neg (hnone 1 (by decide) (by decide)), if_neg (hnone 2 (by decide) (by decide))]

/-- A short text that can be trimmed is one character of three bytes, and stays as it is. -/
theorem snippet_short {elem : Nat} (helem : elem ≤ (encode cs).length)
    (hshort : (encode cs).length < 4) (hcuttable : Cuttable (encode cs)) :
    snippet (encode cs) elem = .ok (encode cs) ∧ FrontWhole (encode cs) 0 ∧
      EndWhole (encode cs) (encode cs).length := by
  obtain hlong | ⟨ch, hch, hlead⟩ := hcuttable
  · omega
  · obtain ⟨i, hi, rfl⟩ := List.getElem_of_mem hch
    rw [← List.getD_eq_getElem _ 0] at hlead
    obtain ⟨-, hend, hsecond, hthird⟩ := isLead_at hi hlead
    obtain rfl : i = 0 := by omega
    have hlen : (encode cs).length = 3 := by omega
    have hwindow : window (encode cs) elem = .ok (encode cs) := by
      rw [window_eq (by omega), windowStart, if_neg (by omega), List.drop_zero,
        List.take_of_length_le (by omega)]
    have hback : backCut (encode cs) = 0 := backCut_encode (by omega)
    refine ⟨?_, Or.inl hlead, fun htwo => ?_, fun hfour => ?_⟩
    · unfold snippet
      rw [hwindow, Except.ok_bind, trimFront_eq (by omega), frontCut, if_pos hlead, Except.ok_bind,
        List.drop_zero, trimBack_eq (by omega), hback, Nat.sub_zero, List.take_length]
    · rw [hlen] at htwo
      exact not_continuation_of_lead htwo hthird
    · rw [hlen] at hfour
      have hend' := (lead_at (by decide) (by omega) hfour).1
      omega

/-- **When a snippet is a text.** For a position in a text, the trimming goes through and leaves a part
of the text that is a text itself exactly when the text can be trimmed and the window is whole at both
ends. -/
theorem snippet_text_iff (cs : List Char) (elem : Nat) (helem : elem ≤ (encode cs).length) :
    (∃ tmp, snippet (encode cs) elem = .ok tmp ∧ tmp <:+: encode cs ∧ ∃ ds, tmp = encode ds) ↔
      Cuttable (encode cs) ∧ FrontWhole (encode cs) (windowStart elem) ∧
        EndWhole (encode cs) (min (windowStart elem + 120) (encode cs).length) := by
  have helem' : (elem : Int) ≤ (encode cs).length := by omega
  by_cases hlong : 4 ≤ (encode cs).length
  · have hcuttable : Cuttable (encode cs) := Or.inl hlong
    obtain ⟨t, ht⟩ : ∃ t, min (windowStart elem + 120) (encode cs).length = t := ⟨_, rfl⟩
    have hwide : windowStart elem + 4 ≤ t := by
      unfold windowStart at ht ⊢
      split at ht <;> split <;> omega
    have ha := frontCut_le ((encode cs).drop (windowStart elem))
    have hb := backCut_le ((encode cs).take t)
    rw [snippet_eq helem' rfl ht hwide, ht, ← boundary_front_iff (by omega),
      ← boundary_back_iff (by omega) (by omega)]
    have hpos : windowStart elem + frontCut ((encode cs).drop (windowStart elem)) <
        t - backCut ((encode cs).take t) := by
      by_cases hend : t = (encode cs).length
      · rw [hend, List.take_length, backCut_encode (by omega)]
        omega
      · omega
    have hle : t ≤ (encode cs).length := by omega
    generalize windowStart elem + frontCut ((encode cs).drop (windowStart elem)) = i at hpos ⊢
    generalize hj : t - backCut ((encode cs).take t) = j at hpos ⊢
    have hinside : ((encode cs).drop i).take (j - i) <:+: encode cs :=
      (List.take_prefix (j - i) _).isInfix.trans (List.drop_suffix i _).isInfix
    have hslice : (∃ ds, ((encode cs).drop i).take (j - i) = encode ds) ↔
        Boundary cs i ∧ Boundary cs (i + (j - i)) := slice_iff (by omega) (by omega)
    rw [Nat.add_sub_cancel' (Nat.le_of_lt hpos)] at hslice
    simp only [Except.ok.injEq, exists_eq_left', hinside, true_and, hcuttable]
    exact hslice
  · have hstart : windowStart elem = 0 := if_neg (by omega)
    have hend : min (0 + 120) (encode cs).length = (encode cs).length := by omega
    rw [hstart, hend]
    by_cases hcuttable : Cuttable (encode cs)
    · obtain ⟨hsnippet, hfront, hback⟩ := snippet_short helem (by omega) hcuttable
      exact iff_of_true ⟨_, hsnippet, List.infix_refl _, cs, rfl⟩ ⟨hcuttable, hfront, hback⟩
    · refine iff_of_false (fun h => ?_) fun h => hcuttable h.1
      obtain ⟨tmp, hsnippet, -⟩ := h
      exact hcuttable ((snippet_exists_ok helem').mp ⟨tmp, hsnippet⟩)

/-- Two letters are both cut in front, and then there is no last byte. Of a letter and a character of
two bytes the second byte of the character is left in front. -/
theorem snippet_not_text :
    (¬ ∃ tmp, snippet (encode ['a', 'b']) (0 : Nat) = .ok tmp) ∧
      ¬ ∃ tmp, snippet (encode ['a', 'é', 'a', 'a']) (0 : Nat) = .ok tmp ∧ ∃ ds, tmp = encode ds := by
  refine ⟨fun h => ?_, fun h => ?_⟩
  · have hcuttable := (snippet_exists_ok (by decide)).mp h
    exact absurd hcuttable (by decide)
  · obtain ⟨tmp, htmp, ds, rfl⟩ := h
    have hbytes : snippet (encode ['a', 'é', 'a', 'a']) (0 : Nat) = .ok [0xA9, 0x61, 0x61] := by
      decide
    have hds := Except.ok.inj (hbytes.symm.trans htmp)
    cases ds with
    | nil => cases hds
    | cons d ds =>
      obtain ⟨lead, tail, hd, hlead, -⟩ := encodeChar_shape d
      rw [encode_cons, hd] at hds
      obtain ⟨rfl, -⟩ := List.cons.inj hds
      exact not_continuation_of_lead hlead (by decide)

theorem snippet_text_iff_letters :
    (∃ tmp, snippet (encode ['a', 'é', 'a', 'a']) (0 : Nat) = .ok tmp ∧
      tmp <:+: encode ['a', 'é', 'a', 'a'] ∧ ∃ ds, tmp = encode ds) ↔
      Cuttable (encode ['a', 'é', 'a', 'a']) ∧
        FrontWhole (encode ['a', 'é', 'a', 'a']) (windowStart (0 : Nat)) ∧
        EndWhole (encode ['a', 'é', 'a', 'a'])
          (min (windowStart (0 : Nat) + 120) (encode ['a', 'é', 'a', 'a']).length) :=
  snippet_text_iff ['a', 'é', 'a', 'a'] 0 (by decide)

end LightSearch.WebPageQuery
