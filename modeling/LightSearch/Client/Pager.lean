import Mathlib.Data.List.GetD
import LightSearch.Lib.Posix
import LightSearch.Lib.Run

/-!
# The pages of a reply, five at a time

`splitPages` prints more than five pages screen by screen: `<` and `>` turn to the screen before and
after, and `q` leaves. The index of the first page is an `int`, and it is compared with and added to
`size_t`, so both are given with their conversions here. A message has an `int` as its length, so that
a list of pages has fewer than 2³¹, and then no index overflows.

What the screens come to is `screen`: screen `k` begins at page `5 * k`. `press_forward` and
`press_back` say what a key does on a screen, and by induction over the keys the pager stays on the
screens (`pager_turns`).
-/

set_option autoImplicit false

namespace LightSearch

open Cxx Posix

/-- What the pager did last: it printed a screen, or told that there is nothing more, or that this is
the first screen. -/
inductive Pager.Reaction where
  | turned
  | noMore
  | atFirst
  deriving DecidableEq

/-- The pager: the index of its screen, the number over the screen, and the pages it printed last. -/
structure Pager where
  curIdx : Int
  number : Int
  shown : List Str
  reaction : Pager.Reaction

namespace Pager

/-- An `int` as a `size_t`. -/
def toSize (n : Int) : Nat := (n % 2 ^ 64).toNat

/-- The difference of two `size_t`. -/
def sizeSub (a b : Nat) : Nat := toSize ((a : Int) - b)

/-- The keys. -/
def back : UInt8 := 60

def forward : UInt8 := 62

def quit : UInt8 := 113

/-- `pages[j]`, where `j` is an `int`. -/
def pageAt (pages : List Str) (j : Int) : Except Fault Str :=
  match pages[toSize j]? with
  | some page => .ok page
  | none => .error .danglingIterator

/-- The loop that prints five pages. -/
def printFive (pages : List Str) (curIdx : Int) : Except Fault (List Str) :=
  (List.range 5).mapM fun (i : Nat) => pageAt pages (int32 (curIdx + i))

/-- The loop that stops at the last page too, from `i` on, for so many more pages. -/
def printUpTo (pages : List Str) (curIdx : Int) (i : Nat) : Nat → Except Fault (List Str)
  | 0 => .ok []
  | n + 1 =>
    if toSize (int32 (curIdx + i)) < pages.length then do
      let page ← pageAt pages (int32 (curIdx + i))
      let rest ← printUpTo pages curIdx (i + 1) n
      .ok (page :: rest)
    else .ok []

/-- A key other than `q`. -/
def press (pages : List Str) (s : Pager) (select : UInt8) : Except Fault Pager :=
  if select = back ∧ s.curIdx ≥ 5 ∧ toSize s.curIdx < pages.length then do
    let curIdx := int32 (s.curIdx - 5)
    let shown ← printFive pages curIdx
    .ok ⟨curIdx, curIdx / 5 + 1, shown, .turned⟩
  else if select = forward ∧ toSize s.curIdx < sizeSub pages.length 5 ∧ s.curIdx ≥ 0 then do
    let curIdx := int32 (s.curIdx + 5)
    let shown ← printUpTo pages curIdx 0 5
    .ok ⟨curIdx, curIdx / 5 + 1, shown, .turned⟩
  else if select = forward then .ok { s with reaction := .noMore }
  else if select = back then .ok { s with reaction := .atFirst }
  else .ok s

/-- The first screen. -/
def start (pages : List Str) : Except Fault Pager := do
  let shown ← printFive pages 0
  .ok ⟨0, 0 / 5 + 1, shown, .turned⟩

/-- The loop over the keys that `readChar` returns: the pager behind them, and whether it was left. -/
def select (pages : List Str) (s : Pager) : Str → Except Fault (Pager × Bool)
  | [] => .ok (s, false)
  | key :: keys =>
    if key = quit then .ok (s, true)
    else do
      let s ← press pages s key
      select pages s keys

/-- `splitPages`, when `readChar` returns these keys. Five pages or less are printed at once. -/
def splitPages (pages : List Str) (keys : Str) : Except Fault (Pager × Bool) :=
  if pages.length ≤ 5 then .ok (⟨0, 0 / 5 + 1, pages, .turned⟩, true)
  else do
    let s ← start pages
    select pages s keys

/-! ## Printing -/

theorem toSize_natCast {j : Nat} (h : j < 2 ^ 31) : toSize j = j := by
  unfold toSize
  omega

theorem toSize_int32 {j : Nat} (h : j < 2 ^ 31) : toSize (int32 j) = j := by
  rw [int32_eq (by omega) (by omega), toSize_natCast h]

variable {pages : List Str}

theorem pageAt_natCast (hint : pages.length < 2 ^ 31) {j : Nat} (h : j < pages.length) :
    pageAt pages (int32 j) = .ok pages[j] := by
  unfold pageAt
  rw [toSize_int32 (by omega), List.getElem?_eq_getElem h]

/-- Five pages that are there are printed. -/
theorem printFive_eq (hint : pages.length < 2 ^ 31) {c : Nat} (h : c + 5 ≤ pages.length) :
    printFive pages c = .ok ((pages.drop c).take 5) := by
  have hpages : (pages.drop c).take 5 = (List.range 5).map fun i => pages.getD (c + i) [] := by
    apply List.ext_getElem
    · simp only [List.length_take, List.length_drop, List.length_map, List.length_range]
      omega
    · intro i hi hi'
      simp only [List.length_map, List.length_range] at hi'
      rw [List.getElem_take, List.getElem_drop, List.getElem_map, List.getElem_range,
        List.getD_eq_getElem _ _ (by omega)]
  unfold printFive
  rw [hpages]
  apply Except.mapM_ok
  intro i hi
  have hi5 : i < 5 := List.mem_range.mp hi
  rw [← Int.natCast_add, pageAt_natCast hint (by omega), List.getD_eq_getElem _ _ (by omega)]

/-- As many pages as are there are printed. -/
theorem printUpTo_eq (hint : pages.length < 2 ^ 31) (c n : Nat) {i : Nat}
    (h : c + i ≤ pages.length) :
    printUpTo pages c i n = .ok ((pages.drop (c + i)).take n) := by
  induction n generalizing i with
  | zero => rw [printUpTo, List.take_zero]
  | succ n ih =>
    rw [printUpTo, ← Int.natCast_add, toSize_int32 (by omega)]
    split
    · next hlt =>
      rw [pageAt_natCast hint hlt, Except.ok_bind, ih (by omega), List.drop_eq_getElem_cons hlt,
        List.take_succ_cons]
      rfl
    · next hge => rw [List.drop_eq_nil_of_le (by omega), List.take_nil]

/-! ## Screens -/

/-- Screen `k`. -/
def screen (pages : List Str) (k : Nat) (reaction : Reaction) : Pager :=
  ⟨(5 * k : Nat), k + 1, (pages.drop (5 * k)).take 5, reaction⟩

@[simp] theorem curIdx_screen (k : Nat) (reaction : Reaction) :
    (screen pages k reaction).curIdx = (5 * k : Nat) := rfl

theorem toSize_curIdx {k : Nat} (h : 5 * k < 2 ^ 31) (reaction : Reaction) :
    toSize (screen pages k reaction).curIdx = 5 * k := toSize_natCast h

theorem number_screen (k : Nat) : ((5 * k : Nat) : Int) / 5 + 1 = k + 1 := by
  omega

theorem start_eq (hint : pages.length < 2 ^ 31) (h : 5 < pages.length) :
    start pages = .ok (screen pages 0 .turned) := by
  have hprint : printFive pages 0 = .ok ((pages.drop 0).take 5) :=
    printFive_eq (c := 0) hint (by omega)
  unfold start
  rw [hprint]
  rfl

/-- **`>` turns to the next screen**, if there is one. -/
theorem press_forward (hint : pages.length < 2 ^ 31) (h5 : 5 < pages.length) {k : Nat}
    (h : 5 * k < pages.length) (reaction : Reaction) :
    press pages (screen pages k reaction) forward =
      .ok (if 5 * k + 5 < pages.length then screen pages (k + 1) .turned
        else screen pages k .noMore) := by
  have hkey : ¬ forward = back := by decide
  have hsub : sizeSub pages.length 5 = pages.length - 5 := by
    unfold sizeSub toSize
    omega
  unfold press
  rw [if_neg fun hall => hkey hall.1, toSize_curIdx (by omega), hsub, curIdx_screen]
  by_cases hmore : 5 * k + 5 < pages.length
  · have hnext : int32 (((5 * k : Nat) : Int) + 5) = (5 * (k + 1) : Nat) := by
      rw [int32_eq (by omega) (by omega)]
      omega
    have hprint := printUpTo_eq hint (5 * (k + 1)) 5 (i := 0) (by omega)
    rw [if_pos ⟨rfl, by omega, Int.natCast_nonneg _⟩, hnext]
    dsimp only
    rw [hprint, Except.ok_bind, if_pos hmore, number_screen]
    rfl
  · rw [if_neg fun hall => hmore (by omega), if_pos rfl, if_neg hmore]
    rfl

/-- **`<` turns to the screen before**, if there is one. -/
theorem press_back (hint : pages.length < 2 ^ 31) {k : Nat} (h : 5 * k < pages.length)
    (reaction : Reaction) :
    press pages (screen pages k reaction) back =
      .ok (if k = 0 then screen pages 0 .atFirst else screen pages (k - 1) .turned) := by
  have hkey : ¬ back = forward := by decide
  unfold press
  rw [toSize_curIdx (by omega), curIdx_screen]
  by_cases hfirst : k = 0
  · subst hfirst
    rw [if_neg fun hall => absurd hall.2.1 (by decide), if_neg fun hall => hkey hall.1, if_neg hkey,
      if_pos rfl, if_pos rfl]
    rfl
  · have hbefore : int32 (((5 * k : Nat) : Int) - 5) = (5 * (k - 1) : Nat) := by
      rw [int32_eq (by omega) (by omega)]
      omega
    rw [if_pos ⟨rfl, by omega, h⟩, hbefore]
    dsimp only
    rw [printFive_eq hint (by omega), Except.ok_bind, if_neg hfirst, number_screen]
    rfl

/-- The keys that turn. -/
def Turns (key : UInt8) : Prop := key = back ∨ key = forward

instance (key : UInt8) : Decidable (Turns key) := inferInstanceAs (Decidable (_ ∨ _))

/-- The pager is on one of its screens. -/
def OnScreen (pages : List Str) (s : Pager) : Prop :=
  ∃ k reaction, 5 * k < pages.length ∧ s = screen pages k reaction

/-- A key leads from a screen to a screen. -/
theorem OnScreen.press (hint : pages.length < 2 ^ 31) (h5 : 5 < pages.length) {s : Pager}
    {key : UInt8} (hs : OnScreen pages s) (hkey : Turns key) :
    ∃ s', Pager.press pages s key = .ok s' ∧ OnScreen pages s' := by
  obtain ⟨k, reaction, hk, rfl⟩ := hs
  rcases hkey with rfl | rfl
  · refine ⟨_, press_back hint hk reaction, ?_⟩
    split
    · exact ⟨0, _, by omega, rfl⟩
    · exact ⟨k - 1, _, by omega, rfl⟩
  · refine ⟨_, press_forward hint h5 hk reaction, ?_⟩
    split
    · next hmore => exact ⟨k + 1, _, by omega, rfl⟩
    · exact ⟨k, _, hk, rfl⟩

/-- Another key leaves the pager as it is. -/
theorem press_other {s : Pager} {key : UInt8} (hkey : ¬ Turns key) : press pages s key = .ok s := by
  unfold press
  rw [if_neg fun h => hkey (.inl h.1), if_neg fun h => hkey (.inr h.1), if_neg fun h => hkey (.inr h),
    if_neg fun h => hkey (.inl h)]

theorem OnScreen.press_any (hint : pages.length < 2 ^ 31) (h5 : 5 < pages.length) {s : Pager}
    (hs : OnScreen pages s) (key : UInt8) :
    ∃ s', Pager.press pages s key = .ok s' ∧ OnScreen pages s' := by
  by_cases hkey : Turns key
  · exact hs.press hint h5 hkey
  · exact ⟨s, press_other hkey, hs⟩

/-- **The pager stays on its screens**, whatever the keys. -/
theorem run_onScreen (hint : pages.length < 2 ^ 31) (h5 : 5 < pages.length) {s : Pager}
    (hs : OnScreen pages s) {keys : Str} (hkeys : ∀ key ∈ keys, Turns key) :
    ∃ s', Run.run (Pager.press pages) s keys = .ok s' ∧ OnScreen pages s' :=
  Run.run_total (OnScreen pages) Turns (fun _ _ hs hkey => hs.press hint h5 hkey) hs keys hkeys

/-- `q` leaves the pager where the keys before it led. -/
theorem select_quit {s s' : Pager} {keys : Str} (hkeys : ∀ key ∈ keys, Turns key)
    (hrun : Run.run (Pager.press pages) s keys = .ok s') :
    select pages s (keys ++ [quit]) = .ok (s', true) := by
  induction keys generalizing s with
  | nil =>
    obtain rfl := Except.ok.inj hrun
    rfl
  | cons key keys ih =>
    obtain ⟨s₁, hpress, hrest⟩ := Except.bind_eq_ok.mp hrun
    obtain ⟨hkey, hkeys⟩ := List.forall_mem_cons.mp hkeys
    have hne : key ≠ quit := by
      rcases hkey with rfl | rfl
      · decide
      · decide
    rw [List.cons_append, select, if_neg hne, hpress, Except.ok_bind, ih hkeys hrest]

/-- The first screens are the first pages. -/
theorem flatMap_screens (pages : List Str) (n : Nat) :
    ((List.range n).flatMap fun k => (pages.drop (5 * k)).take 5) = pages.take (5 * n) := by
  induction n with
  | zero => rfl
  | succ n ih =>
    rw [List.range_succ, List.flatMap_append, ih, List.flatMap_singleton, ← List.take_add]
    rfl

/-- The screens that `>` leads to from the first one, and then the last one again. -/
def sweep (pages : List Str) (i : Nat) : Pager :=
  if 5 * i < pages.length then screen pages i .turned
  else screen pages ((pages.length - 1) / 5) .noMore

theorem run_sweep (hint : pages.length < 2 ^ 31) (h5 : 5 < pages.length) {i : Nat}
    (hi : i ≤ (pages.length - 1) / 5 + 1) :
    Run.run (Pager.press pages) (screen pages 0 .turned) (List.replicate i forward) =
      .ok (sweep pages i) := by
  induction i with
  | zero =>
    unfold sweep
    rw [if_pos (by omega)]
    rfl
  | succ i ih =>
    have hscreen : sweep pages i = screen pages i .turned := if_pos (by omega)
    have hpress := press_forward hint h5 (k := i) (by omega) .turned
    have hstep : Run.run (Pager.press pages) (screen pages i .turned) [forward] =
        .ok (if 5 * i + 5 < pages.length then screen pages (i + 1) .turned
          else screen pages i .noMore) := by
      rw [Run.run_cons, hpress]
      rfl
    rw [List.replicate_succ', Run.run_append, ih (by omega), Except.ok_bind, hscreen, hstep]
    unfold sweep
    by_cases hmore : 5 * i + 5 < pages.length
    · rw [if_pos hmore, if_pos (by omega)]
    · have hlast : (pages.length - 1) / 5 = i := by omega
      rw [if_neg hmore, if_neg (by omega), hlast]

/-- **The result pager.** For a list of more than five pages, and of fewer than 2³¹ as a message can
have, no key makes an index leave the list. Behind any keys `curIdx` is a multiple of five and the index
of a page, the pages printed last are the five from there on or those that are left, `>` is refused
exactly on the last screen and `<` on the first, and `q` returns. From the first screen `>` shows all
pages once and in order until it is refused. -/
theorem pager_turns (hint : pages.length < 2 ^ 31) (h5 : 5 < pages.length) :
    (∀ keys : Str, (∀ key ∈ keys, Turns key) →
      ∃ s, start pages >>= (fun s => Run.run (Pager.press pages) s keys) = .ok s ∧
        splitPages pages (keys ++ [quit]) = .ok (s, true) ∧
        5 ∣ s.curIdx ∧ 0 ≤ s.curIdx ∧ s.curIdx < pages.length ∧
        s.shown = (pages.drop s.curIdx.toNat).take 5 ∧
        (∃ s', Pager.press pages s forward = .ok s' ∧
          s'.reaction = if (pages.length : Int) ≤ s.curIdx + 5 then .noMore else .turned) ∧
        (∃ s', Pager.press pages s back = .ok s' ∧
          s'.reaction = if s.curIdx = 0 then .atFirst else .turned)) ∧
    ∃ (n : Nat) (states : Nat → Pager),
      (∀ i ≤ n + 1, start pages >>= (fun s =>
        Run.run (Pager.press pages) s (List.replicate i forward)) = .ok (states i)) ∧
      (∀ i ≤ n, (states i).reaction = .turned) ∧ (states (n + 1)).reaction = .noMore ∧
      ((List.range (n + 1)).flatMap fun i => (states i).shown) = pages := by
  have hstart := start_eq hint h5
  refine ⟨fun keys hkeys => ?_, (pages.length - 1) / 5, sweep pages, fun i hi => ?_, fun i hi => ?_,
    ?_, ?_⟩
  · have hfirst : OnScreen pages (screen pages 0 .turned) := ⟨0, _, by omega, rfl⟩
    obtain ⟨s, hrun, hscreen⟩ := run_onScreen hint h5 hfirst hkeys
    refine ⟨s, by rw [hstart, Except.ok_bind, hrun], ?_, ?_⟩
    · unfold splitPages
      rw [if_neg (by omega), hstart, Except.ok_bind, select_quit hkeys hrun]
    · obtain ⟨k, reaction, hk, rfl⟩ := hscreen
      refine ⟨⟨k, by rw [curIdx_screen]; omega⟩, Int.natCast_nonneg _, Int.ofNat_lt.mpr hk, rfl,
        ⟨_, press_forward hint h5 hk reaction, ?_⟩, _, press_back hint hk reaction, ?_⟩
      · rw [curIdx_screen]
        by_cases hmore : 5 * k + 5 < pages.length
        · rw [if_pos hmore, if_neg (by omega)]
          rfl
        · rw [if_neg hmore, if_pos (by omega)]
          rfl
      · rw [curIdx_screen]
        by_cases hzero : k = 0
        · rw [if_pos hzero, if_pos (by omega)]
          rfl
        · rw [if_neg hzero, if_neg (by omega)]
          rfl
  · rw [hstart, Except.ok_bind, run_sweep hint h5 hi]
  · unfold sweep
    rw [if_pos (by omega)]
    rfl
  · unfold sweep
    rw [if_neg (by omega)]
    rfl
  · have hshown : ∀ i ∈ List.range ((pages.length - 1) / 5 + 1),
        (sweep pages i).shown = (pages.drop (5 * i)).take 5 := by
      intro i hi
      have hlt := List.mem_range.mp hi
      unfold sweep
      rw [if_pos (by omega)]
      rfl
    rw [List.flatMap_def, List.map_congr_left hshown, ← List.flatMap_def, flatMap_screens,
      List.take_of_length_le (by omega)]

/-- Seven pages. -/
theorem pager_turns_seven :
    let pages := [lit "1", lit "2", lit "3", lit "4", lit "5", lit "6", lit "7"]
    ∃ s, start pages >>= (fun s => Run.run (Pager.press pages) s [forward, forward, back, forward]) =
        .ok s ∧
      splitPages pages [forward, forward, back, forward, quit] = .ok (s, true) ∧
      5 ∣ s.curIdx ∧ 0 ≤ s.curIdx ∧ s.curIdx < pages.length ∧
      s.shown = (pages.drop s.curIdx.toNat).take 5 := by
  intro pages
  obtain ⟨s, hrun, hsplit, hfive, hnonneg, hlt, hshown, -⟩ :=
    (@pager_turns pages (by decide) (by decide)).1 [forward, forward, back, forward] (by decide)
  exact ⟨s, hrun, hsplit, hfive, hnonneg, hlt, hshown⟩

end Pager

end LightSearch
