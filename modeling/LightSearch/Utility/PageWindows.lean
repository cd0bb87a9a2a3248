import LightSearch.Utility.PageResult

/-!
# What the windows show

The loop over the first positions keeps the smallest, and then each time the smallest that lies 60 or
more behind the last one it kept. So the kept positions are the `Start`s of groups, and each position
lies less than 60 behind the start of its group (`merge_keeps`).

The window of a start begins 60 bytes before it, or where the description does, and is 120 bytes long.
A word in the second half of its group reaches over the end when it is long enough, and only the next
group can show it then.
-/

set_option autoImplicit false

namespace LightSearch.WebPageQuery

open Cxx

/-! ## The groups -/

/-- The starts of the groups: the smallest position, and behind a start the smallest that is not
closer than 60. -/
inductive Start (index : List Int) : Int → Prop
  | first (elem : Int) (mem : elem ∈ index) (least : ∀ q ∈ index, elem ≤ q) : Start index elem
  | next (elem elem' : Int) (start : Start index elem) (mem : elem' ∈ index)
    (behind : elem + 60 ≤ elem') (least : ∀ q ∈ index, elem + 60 ≤ q → elem' ≤ q) :
    Start index elem'

theorem Start.mem {index : List Int} {elem : Int} (h : Start index elem) : elem ∈ index := by
  cases h with
  | first _ mem _ => exact mem
  | next _ _ _ mem _ _ => exact mem

variable {slow : Int} {index : List Int}

/-- What is kept behind a position is at least 60 behind it. -/
theorem le_of_mem_mergeFrom (hsorted : index.Pairwise (· < ·)) {elem : Int}
    (h : elem ∈ mergeFrom slow index) : slow + 60 ≤ elem := by
  induction index generalizing slow with
  | nil => cases h
  | cons fast index ih =>
    obtain ⟨-, hrest⟩ := List.pairwise_cons.mp hsorted
    unfold mergeFrom at h
    split at h
    · exact ih hrest h
    · rcases List.mem_cons.mp h with rfl | h
      · omega
      · have hle := ih hrest h
        omega

theorem mergeFrom_pairwise (hsorted : index.Pairwise (· < ·)) :
    (slow :: mergeFrom slow index).Pairwise fun a b => a + 60 ≤ b := by
  induction index generalizing slow with
  | nil => simp [mergeFrom]
  | cons fast index ih =>
    obtain ⟨-, hrest⟩ := List.pairwise_cons.mp hsorted
    have hall : ∀ elem ∈ mergeFrom slow (fast :: index), slow + 60 ≤ elem :=
      fun elem helem => le_of_mem_mergeFrom hsorted helem
    refine List.pairwise_cons.mpr ⟨hall, ?_⟩
    unfold mergeFrom
    split
    · exact (List.pairwise_cons.mp (@ih slow hrest)).2
    · exact ih hrest

/-- Each position is less than 60 behind a kept one. -/
theorem exists_mergeFrom (hsorted : (slow :: index).Pairwise (· < ·)) {q : Int}
    (hq : q ∈ slow :: index) : ∃ elem ∈ slow :: mergeFrom slow index, elem ≤ q ∧ q < elem + 60 := by
  induction index generalizing slow with
  | nil =>
    rw [List.mem_singleton] at hq
    exact ⟨slow, List.mem_cons_self, by omega, by omega⟩
  | cons fast index ih =>
    obtain ⟨hfirst, hrest⟩ := List.pairwise_cons.mp hsorted
    have hfast : slow < fast := hfirst fast List.mem_cons_self
    unfold mergeFrom
    split
    next hclose =>
      rcases List.mem_cons.mp hq with rfl | hq
      · exact ⟨q, List.mem_cons_self, by omega, by omega⟩
      · rcases List.mem_cons.mp hq with rfl | hq
        · exact ⟨slow, List.mem_cons_self, by omega, by omega⟩
        · have hsorted' : (slow :: index).Pairwise (· < ·) :=
            hsorted.sublist (List.Sublist.cons_cons slow (List.sublist_cons_self fast index))
          exact ih hsorted' (List.mem_cons_of_mem _ hq)
    next hfar =>
      rcases List.mem_cons.mp hq with rfl | hq
      · exact ⟨q, List.mem_cons_self, by omega, by omega⟩
      · obtain ⟨elem, helem, hle⟩ := ih hrest hq
        exact ⟨elem, List.mem_cons_of_mem _ helem, hle⟩

/-- What is kept are starts. -/
theorem start_of_mem_mergeFrom {all : List Int} (hstart : Start all slow)
    (hsorted : index.Pairwise (· < ·)) (hsub : ∀ q ∈ index, q ∈ all)
    (hall : ∀ q ∈ all, slow + 60 ≤ q → q ∈ index) {elem : Int} (h : elem ∈ mergeFrom slow index) :
    Start all elem := by
  induction index generalizing slow with
  | nil => cases h
  | cons fast index ih =>
    obtain ⟨hfirst, hrest⟩ := List.pairwise_cons.mp hsorted
    unfold mergeFrom at h
    split at h
    next hclose =>
      refine ih hstart hrest (fun q hq => hsub q (List.mem_cons_of_mem _ hq)) (fun q hq hle => ?_) h
      refine (List.mem_cons.mp (hall q hq hle)).resolve_left fun heq => ?_
      omega
    next hfar =>
      have hnext : Start all fast := by
        refine Start.next slow fast hstart (hsub fast List.mem_cons_self) (by omega) fun q hq hle => ?_
        rcases List.mem_cons.mp (hall q hq hle) with rfl | hq
        · omega
        · exact Int.le_of_lt (hfirst q hq)
      rcases List.mem_cons.mp h with rfl | h
      · exact hnext
      · refine ih hnext hrest (fun q hq => hsub q (List.mem_cons_of_mem _ hq)) (fun q hq hle => ?_) h
        refine (List.mem_cons.mp (hall q hq (by omega))).resolve_left fun heq => ?_
        omega

/-- Two kept positions are equal or apart. -/
theorem apart_of_mem {kept : List Int} (h : kept.Pairwise fun a b => a + 60 ≤ b) {a b : Int}
    (ha : a ∈ kept) (hb : b ∈ kept) (hlt : a < b) : a + 60 ≤ b := by
  have : Std.Symm fun a b : Int => a + 60 ≤ b ∨ b + 60 ≤ a := ⟨fun _ _ h => h.symm⟩
  have hall : kept.Pairwise fun a b => a + 60 ≤ b ∨ b + 60 ≤ a := h.imp Or.inl
  have hapart := hall.forall ha hb (Int.ne_of_lt hlt)
  omega

/-- **What the loop keeps**: the starts, 60 apart, and each position is in the group of one. -/
theorem merge_keeps {kept : List Int} (hsorted : index.Pairwise (· < ·)) (h : merge index = .ok kept) :
    kept.Pairwise (fun a b => a + 60 ≤ b) ∧ (∀ elem, elem ∈ kept ↔ Start index elem) ∧
      ∀ q ∈ index, ∃ elem ∈ kept, elem ≤ q ∧ q < elem + 60 := by
  cases index with
  | nil => cases h
  | cons slow index =>
    obtain rfl := Except.ok.inj h
    obtain ⟨hfirst, hrest⟩ := List.pairwise_cons.mp hsorted
    have hapart := @mergeFrom_pairwise slow index hrest
    have hgroup : ∀ q ∈ slow :: index, ∃ elem ∈ slow :: mergeFrom slow index, elem ≤ q ∧
        q < elem + 60 := fun q hq => exists_mergeFrom hsorted hq
    have hslow : Start (slow :: index) slow := by
      refine Start.first slow List.mem_cons_self fun q hq => ?_
      rcases List.mem_cons.mp hq with rfl | hq
      · exact Int.le_refl q
      · exact Int.le_of_lt (hfirst q hq)
    have hstart : ∀ elem ∈ slow :: mergeFrom slow index, Start (slow :: index) elem := by
      intro elem helem
      rcases List.mem_cons.mp helem with rfl | helem
      · exact hslow
      · refine start_of_mem_mergeFrom hslow hrest (fun q hq => List.mem_cons_of_mem _ hq)
          (fun q hq hle => ?_) helem
        refine (List.mem_cons.mp hq).resolve_left fun heq => ?_
        omega
    refine ⟨hapart, fun elem => ⟨hstart elem, fun helem => ?_⟩, hgroup⟩
    -- by induction on the starts: the next start is in the group of a kept one, and is that one
    induction helem with
    | first elem mem least =>
      obtain ⟨kept, hkept, hle, -⟩ := hgroup elem mem
      have hge := least kept (hstart kept hkept).mem
      rwa [Int.le_antisymm hge hle]
    | next elem elem' start mem behind least ih =>
      obtain ⟨kept, hkept, hle, hlt⟩ := hgroup elem' mem
      have hbehind : elem + 60 ≤ kept := by
        rcases Int.lt_trichotomy elem kept with hlt' | rfl | hgt
        · exact apart_of_mem hapart ih hkept hlt'
        · omega
        · have hapart' := apart_of_mem hapart hkept ih hgt
          omega
      have hge := least kept (hstart kept hkept).mem hbehind
      rwa [Int.le_antisymm hge hle]

/-! ## The windows -/

theorem sorted_positions (desc : Str) (queryWords : List Str) :
    (positions desc queryWords).Pairwise (· < ·) :=
  Std.TreeSet.ordered_toList.imp fun {_ _} h => compare_lt_iff_lt.mp h

/-- Where the window of a position begins. -/
def windowStart (elem : Int) : Nat := if elem ≥ 60 then (elem - 60).toNat else 0

theorem window_eq {desc : Str} {elem : Int} (h : elem ≤ desc.length) :
    window desc elem = .ok ((desc.drop (windowStart elem)).take 120) := by
  unfold window windowStart
  split
  · exact if_pos (by omega)
  · exact if_pos (Nat.zero_le _)

/-- The window of a position shows a word: all the bytes of its first occurrence are in it. -/
def Shown (desc word : Str) (elem : Int) : Prop :=
  ∃ tmp k, window desc elem = .ok tmp ∧ find word desc = some (windowStart elem + k) ∧
    word <+: tmp.drop k

theorem shown_iff {desc word : Str} {elem : Int} {pos : Nat} (helem : elem ≤ desc.length)
    (hpos : find word desc = some pos) :
    Shown desc word elem ↔
      windowStart elem ≤ pos ∧ pos + word.length ≤ windowStart elem + 120 := by
  have hempty : word = [] → pos = 0 := by
    rintro rfl
    cases desc <;> simpa [find, eq_comm] using hpos
  refine ⟨fun h => ?_, fun h => ?_⟩
  · obtain ⟨tmp, k, hwindow, hfind, hfront⟩ := h
    obtain rfl := Except.ok.inj ((window_eq helem).symm.trans hwindow)
    obtain rfl := Option.some.inj (hpos.symm.trans hfind)
    have hle := hfront.length_le
    simp only [List.length_drop, List.length_take] at hle
    refine ⟨Nat.le_add_right _ _, ?_⟩
    by_cases hword : word = []
    · rw [hempty hword, hword]
      exact Nat.zero_le _
    · have hlen := List.length_pos_iff.mpr hword
      omega
  · obtain ⟨hle, hend⟩ := h
    refine ⟨_, pos - windowStart elem, window_eq helem, by rw [hpos, Nat.add_sub_cancel' hle], ?_⟩
    rw [List.drop_take, List.drop_drop, Nat.add_sub_cancel' hle, List.prefix_take_iff]
    exact ⟨find_front hpos, by omega⟩

/-- **When the windows show the words.** The kept positions are 60 apart in any case. Each word that
occurs is shown in a window exactly when it ends 60 bytes behind the start of its group, or a group
starts in time: when there is a first position at least 60 behind the start and at most 60 behind the
word's. -/
theorem windows_show_iff (desc : Str) (queryWords : List Str)
    (hlen : ∀ word ∈ queryWords, word.length ≤ 60) :
    (∃ kept, merge (positions desc queryWords) = .ok kept ∧ kept.Pairwise (fun a b => a + 60 ≤ b) ∧
      ∀ word ∈ queryWords, ∀ pos, find word desc = some pos → ∃ elem ∈ kept, Shown desc word elem) ↔
    queryWords ≠ [] ∧ ∀ word ∈ queryWords, ∀ pos : Nat, find word desc = some pos →
      ∀ elem, Start (positions desc queryWords) elem → elem ≤ pos → pos < elem + 60 →
        pos + word.length ≤ max elem 60 + 60 ∨
          ∃ other ∈ queryWords, elem + 60 ≤ position desc other ∧ position desc other ≤ pos + 60 := by
  have hbound : ∀ elem ∈ positions desc queryWords, elem ≤ desc.length := by
    intro elem helem
    obtain ⟨word, -, rfl⟩ := mem_positions.mp helem
    exact position_le desc word
  have hfirst : ∀ word ∈ queryWords, ∀ pos : Nat, find word desc = some pos →
      (pos : Int) ∈ positions desc queryWords := by
    intro word hword pos hpos
    refine mem_positions.mpr ⟨word, hword, ?_⟩
    rw [position, hpos]
  refine ⟨fun h => ?_, fun h => ?_⟩
  · obtain ⟨kept, hmerge, -, hshown⟩ := h
    obtain ⟨hapart, hstart, -⟩ := merge_keeps (sorted_positions desc queryWords) hmerge
    refine ⟨?_, fun word hword pos hpos elem helem hle hlt => ?_⟩
    · rintro rfl
      cases hmerge
    · obtain ⟨shower, hshower, hshow⟩ := hshown word hword pos hpos
      have hmem := ((hstart shower).mp hshower).mem
      obtain ⟨hfrom, hto⟩ := (shown_iff (hbound shower hmem) hpos).mp hshow
      unfold windowStart at hfrom hto
      by_cases hlater : elem < shower
      · -- the window of a later group
        have hbehind := apart_of_mem hapart ((hstart elem).mpr helem) hshower hlater
        obtain ⟨other, hother, rfl⟩ := mem_positions.mp hmem
        refine Or.inr ⟨other, hother, hbehind, ?_⟩
        split at hfrom <;> omega
      · refine Or.inl ?_
        split at hto <;> omega
  · obtain ⟨hne, hcond⟩ := h
    obtain ⟨kept, hmerge, -⟩ := merge_positions desc hne
    obtain ⟨hapart, hstart, hgroup⟩ := merge_keeps (sorted_positions desc queryWords) hmerge
    refine ⟨kept, hmerge, hapart, fun word hword pos hpos => ?_⟩
    obtain ⟨elem, helem, hle, hlt⟩ := hgroup pos (hfirst word hword pos hpos)
    have hwordlen := hlen word hword
    rcases hcond word hword pos hpos elem ((hstart elem).mp helem) hle hlt with
      hends | ⟨other, hother, hbehind, hnear⟩
    · refine ⟨elem, helem, (shown_iff (hbound elem ((hstart elem).mp helem).mem) hpos).mpr ?_⟩
      unfold windowStart
      split <;> omega
    · -- the group of the other word starts behind this one
      obtain ⟨next, hnext, hnextle, hnextlt⟩ :=
        hgroup _ (mem_positions.mpr ⟨other, hother, rfl⟩)
      have hlater : elem < next := by omega
      have hapart' := apart_of_mem hapart helem hnext hlater
      refine ⟨next, hnext, (shown_iff (hbound next ((hstart next).mp hnext).mem) hpos).mpr ?_⟩
      unfold windowStart
      split <;> omega

/-- A description with two words: the second lies 50 bytes behind the first and is 20 bytes long. -/
def straddling : Str × List Str :=
  (List.replicate 100 120 ++ lit "cpp" ++ List.replicate 47 120 ++ lit "internationalization",
    [lit "cpp", lit "internationalization"])

/-- The only window ends in the middle of the second word. -/
theorem straddling_not_shown :
    (∀ word ∈ straddling.2, word.length ≤ 60) ∧
      ¬ ∃ kept, merge (positions straddling.1 straddling.2) = .ok kept ∧
        kept.Pairwise (fun a b => a + 60 ≤ b) ∧
        ∀ word ∈ straddling.2, ∀ pos, find word straddling.1 = some pos →
          ∃ elem ∈ kept, Shown straddling.1 word elem := by
  refine ⟨by decide, fun h => ?_⟩
  obtain ⟨kept, hmerge, -, hshown⟩ := h
  have hkept : (merge (positions straddling.1 straddling.2)).check (fun kept => kept = [100]) = true := by
    decide +kernel
  rw [hmerge] at hkept
  obtain rfl : kept = [100] := of_decide_eq_true hkept
  have hpos : find (lit "internationalization") straddling.1 = some 150 := by decide +kernel
  obtain ⟨elem, helem, hshow⟩ := hshown (lit "internationalization") (by decide) 150 hpos
  obtain rfl := List.mem_singleton.mp helem
  have hcovered := (shown_iff (by decide +kernel) hpos).mp hshow
  exact absurd hcovered (by decide)

theorem windows_show_iff_straddling :
    (∃ kept, merge (positions straddling.1 straddling.2) = .ok kept ∧
      kept.Pairwise (fun a b => a + 60 ≤ b) ∧
      ∀ word ∈ straddling.2, ∀ pos, find word straddling.1 = some pos →
        ∃ elem ∈ kept, Shown straddling.1 word elem) ↔
    straddling.2 ≠ [] ∧ ∀ word ∈ straddling.2, ∀ pos : Nat, find word straddling.1 = some pos →
      ∀ elem, Start (positions straddling.1 straddling.2) elem → elem ≤ pos → pos < elem + 60 →
        pos + word.length ≤ max elem 60 + 60 ∨ ∃ other ∈ straddling.2,
          elem + 60 ≤ position straddling.1 other ∧ position straddling.1 other ≤ pos + 60 :=
  windows_show_iff straddling.1 straddling.2 (by decide)

end LightSearch.WebPageQuery
