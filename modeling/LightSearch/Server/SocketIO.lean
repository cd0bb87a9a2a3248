import Mathlib.Data.List.Basic
import LightSearch.Lib.Posix

/-!
# Reading and writing a connection

`readLine` looks for a newline in what a peek shows, and takes the bytes out of the stream with
`readn` once it knows how many there are: those up to the first newline, or all that the peek
showed. So the calls come in pairs, a peek that fills the buffer ahead of `pstr` and the reads that
store the same bytes again.

`lineLength` is the number of bytes that one `readLine` takes in the end. It does not depend on how
the kernel cuts the stream, but what a peek shows behind the newline does, and that is in the buffer
too: `LineRead` says which cells are settled and how far the others reach.
-/

set_option autoImplicit false

namespace LightSearch

open Cxx Posix

/-! ## The functions -/

/-- `SocketIO::readn`. -/
def readn (buf : Buffer) (pstr : Nat) (len : Int) (s : Source) : Int × Buffer × Source :=
  readFully (len + 1) len len pstr buf s

/-- The loop of `readLine`. -/
def readLineFrom (len left : Int) (pstr : Nat) (total : Int) (buf : Buffer) (s : Source) :
    Int × Buffer × Source :=
  if 0 < left then
    match _hpeek : s.peek left.toNat with
    | (.interrupted, s') => readLineFrom len left pstr total buf s'
    | (.failed, s') => (len + 1, buf, s')
    | (.done data, s') =>
      if data = [] then (total - left, buf.store pstr [0], s')
      else
        let idx := data.idxOf newline
        if idx < data.length then
          let sz := idx + 1
          let (_, buf, s') := readn (buf.store pstr data) pstr sz s'
          (total + sz, buf.store (pstr + sz) [0], s')
        else
          let ret := data.length
          let r := readn (buf.store pstr data) pstr ret s'
          readLineFrom len (left - ret) (pstr + ret) (total + ret) r.2.1 r.2.2
  else (total - left, buf.store pstr [0], s)
termination_by (left.toNat, s.calls.length)
decreasing_by
  · exact .right _ (Source.peek_interrupted _hpeek)
  · have hdata : 0 < data.length := List.length_pos_iff.mpr ‹_›
    exact .left _ _ (by omega)

/-- `SocketIO::readLine`. -/
def readLine (buf : Buffer) (len : Int) (s : Source) : Int × Buffer × Source :=
  readLineFrom len (int32 (len - 1)) 0 0 buf s

/-- `SocketIO::writen`. -/
def writen (buf : Str) (len : Int) (s : Sink) : Int × Sink :=
  writeFully (len + 1) len len buf s

/-! ## Lines -/

/-- How many of the first `n` bytes of a stream end with the first newline, or all of them when there
is none. -/
def lineLength (n : Nat) (incoming : Str) : Nat :=
  min ((incoming.take n).idxOf newline + 1) (incoming.take n).length

theorem lineLength_le (n : Nat) (incoming : Str) :
    lineLength n incoming ≤ (incoming.take n).length := Nat.min_le_right _ _

theorem lineLength_le_length (n : Nat) (incoming : Str) : lineLength n incoming ≤ incoming.length :=
  (lineLength_le n incoming).trans (List.length_take_le' n incoming)

/-- Pieces without a newline are passed over. -/
theorem lineLength_split {n : Nat} {data incoming : Str} (htake : data = incoming.take data.length)
    (hle : data.length ≤ n) (hline : newline ∉ data) :
    lineLength n incoming =
      data.length + lineLength (n - data.length) (incoming.drop data.length) := by
  unfold lineLength
  rw [take_eq_append htake hle, List.idxOf_append_of_notMem hline, List.length_append]
  omega

/-- A newline ends the line. -/
theorem lineLength_newline {n : Nat} {data incoming : Str}
    (htake : data = incoming.take data.length) (hle : data.length ≤ n) (hline : newline ∈ data) :
    lineLength n incoming = data.idxOf newline + 1 := by
  have hlt := List.idxOf_lt_length_of_mem hline
  unfold lineLength
  rw [take_eq_append htake hle, List.idxOf_append_of_mem hline, List.length_append]
  omega

/-- The line is all of the bytes exactly when no byte but the last is a newline. -/
theorem lineLength_eq_iff (incoming : Str) (n : Nat) :
    lineLength n incoming = (incoming.take n).length ↔
      newline ∉ (incoming.take n).take ((incoming.take n).length - 1) := by
  unfold lineLength
  by_cases hline : newline ∈ incoming.take n
  · have hlt := List.idxOf_lt_length_of_mem hline
    rw [List.mem_take_iff_idxOf_lt hline]
    omega
  · have hidx := List.idxOf_eq_length hline
    have hbefore : newline ∉ (incoming.take n).take ((incoming.take n).length - 1) :=
      fun h => hline (List.mem_of_mem_take h)
    simp only [hidx, hbefore, not_false_eq_true, iff_true]
    omega

theorem lineLength_nil (n : Nat) : lineLength n [] = 0 := by
  have h := lineLength_le_length n []
  rw [List.length_nil] at h
  omega

theorem lineLength_zero (incoming : Str) : lineLength 0 incoming = 0 := by
  have h := lineLength_le 0 incoming
  rw [List.take_zero, List.length_nil] at h
  omega

/-- What `readLine` leaves in a buffer from `pstr` on, when `shown` are the bytes that its peeks may
show and `n` of them are the line. -/
structure LineRead (shown : Str) (n pstr : Nat) (buf buf' : Buffer) : Prop where
  before : ∀ i, i < pstr → buf'.cells i = buf.cells i
  line : ∀ (i : Nat) (_ : i < n) (hi : i < shown.length), buf'.cells (pstr + i) = shown[i]
  ends : buf'.cells (pstr + n) = 0
  old : ∀ i, i ∈ buf.written → i ∈ buf'.written
  nul : pstr + n ∈ buf'.written
  within : ∀ i, i ∈ buf'.written → i ∈ buf.written ∨ i ≤ pstr + n ∨ i < pstr + shown.length

/-- The end of the stream or of the buffer. -/
theorem LineRead.nil (pstr : Nat) (buf : Buffer) : LineRead [] 0 pstr buf (buf.store pstr [0]) where
  before := fun i hi => Buffer.store_cells_lt [0] hi
  line := fun i hi => absurd hi (Nat.not_lt_zero i)
  ends := Buffer.store_cells_self buf pstr 0
  old := fun i hi => Buffer.mem_store_written.mpr (.inl hi)
  nul := Buffer.mem_store_written.mpr (.inr ⟨Nat.le_refl _, Nat.lt_succ_self _⟩)
  within := fun i hi => (Buffer.mem_store_written.mp hi).imp id fun h => .inl (by
    simp only [List.length_singleton] at h; omega)

/-- A peek that shows a newline: the `sz` bytes of the line are stored again, and the NUL behind. -/
theorem LineRead.found {shown data : Str} {sz : Nat} (pstr : Nat) (buf : Buffer) (hdata : data <+: shown)
    (hsz : sz ≤ data.length) :
    LineRead shown sz pstr buf
      (((buf.store pstr data).store pstr (data.take sz)).store (pstr + sz) [0]) := by
  have hlen : (data.take sz).length = sz := by rw [List.length_take]; omega
  have hle := hdata.length_le
  constructor
  · intro i hi
    rw [Buffer.store_cells_lt _ (by omega), Buffer.store_cells_lt _ hi, Buffer.store_cells_lt _ hi]
  · intro i hi hshown
    rw [Buffer.store_cells_lt _ (by omega), Buffer.store_cells (by omega), List.getElem_take]
    exact hdata.getElem (by omega)
  · exact Buffer.store_cells_self _ _ 0
  · intro i hi
    simp only [Buffer.mem_store_written]
    exact .inl (.inl (.inl hi))
  · simp only [Buffer.mem_store_written, List.length_singleton]
    omega
  · intro i hi
    simp only [Buffer.mem_store_written, List.length_singleton, hlen] at hi
    rcases hi with ((hold | hshow) | hread) | hnul
    · exact .inl hold
    · exact .inr (.inr (by omega))
    · exact .inr (.inr (by omega))
    · exact .inr (.inl (by omega))

/-- A peek that shows no newline: its bytes are stored twice, and the line goes on behind them. -/
theorem LineRead.piece {shown data : Str} {n pstr : Nat} {buf buf' : Buffer}
    (h : LineRead shown n (pstr + data.length) ((buf.store pstr data).store pstr data) buf') :
    LineRead (data ++ shown) (data.length + n) pstr buf buf' := by
  constructor
  · intro i hi
    rw [h.before i (by omega), Buffer.store_cells_lt _ hi, Buffer.store_cells_lt _ hi]
  · intro i hi hshown
    by_cases hdata : i < data.length
    · rw [h.before _ (by omega), Buffer.store_cells hdata, List.getElem_append_left hdata]
    · have hrest := h.line (i - data.length) (by omega)
        (by rw [List.length_append] at hshown; omega)
      rw [List.getElem_append_right (by omega), ← hrest]
      congr 1
      omega
  · rw [← Nat.add_assoc]
    exact h.ends
  · intro i hi
    apply h.old
    simp only [Buffer.mem_store_written]
    exact .inl (.inl hi)
  · rw [← Nat.add_assoc]
    exact h.nul
  · intro i hi
    have hcase := h.within i hi
    simp only [Buffer.mem_store_written] at hcase
    rw [List.length_append]
    rcases hcase with ((hold | hshow) | hread) | hline | hlater
    · exact .inl hold
    · exact .inr (.inl (by omega))
    · exact .inr (.inl (by omega))
    · exact .inr (.inl (by omega))
    · exact .inr (.inr (by omega))

/-- `readn` of bytes that a peek showed. -/
theorem readn_shown (buf : Buffer) (pstr n : Nat) {s : Source} (hs : Healthy s.calls) :
    ∃ ret calls, calls <:+ s.calls ∧ readn buf pstr n s =
      (ret, buf.store pstr (s.incoming.take n), ⟨s.incoming.drop n, calls⟩) := by
  obtain ⟨calls, hsuffix, hread⟩ := readFully_eq (n + 1) n n pstr buf hs
  rw [Int.toNat_natCast] at hread
  exact ⟨_, calls, hsuffix, hread⟩

/-- **However the stream is cut, `readLine` takes one line of it.** -/
theorem readLineFrom_eq (len left : Int) (pstr : Nat) (total : Int) (buf : Buffer) {s : Source}
    (hs : Healthy s.calls) :
    ∃ ret buf' calls, calls <:+ s.calls ∧
      readLineFrom len left pstr total buf s =
        (ret, buf', ⟨s.incoming.drop (lineLength left.toNat s.incoming), calls⟩) ∧
      LineRead (s.incoming.take left.toNat) (lineLength left.toNat s.incoming) pstr buf buf' := by
  fun_induction readLineFrom len left pstr total buf s with
  | case1 left pstr total buf s hleft s' hpeek ih =>
    obtain ⟨hsame, hcalls⟩ := Source.peek_keeps hpeek
    obtain ⟨ret, buf', calls, hsuffix, hrest, hread⟩ := ih (hs.suffix hcalls)
    rw [hsame] at hrest hread
    exact ⟨ret, buf', calls, hsuffix.trans hcalls, hrest, hread⟩
  | case2 left pstr total buf s hleft s' hpeek => exact absurd hpeek (Source.peek_ne_failed hs)
  | case3 left pstr total buf s hleft s' hpeek =>
    -- the end of the stream
    obtain ⟨hsame, hcalls⟩ := Source.peek_keeps hpeek
    obtain ⟨-, -, hend⟩ := Source.peek_done (by omega) hpeek
    have hempty : s'.incoming = [] := hsame.trans (hend rfl)
    refine ⟨total - left, buf.store pstr [0], s'.calls, hcalls, ?_, ?_⟩
    · rw [hend rfl, lineLength_nil, List.drop_zero, ← hempty]
    · rw [hend rfl, lineLength_nil, List.take_nil]
      exact .nil pstr buf
  | case4 left pstr total buf s hleft data s' hpeek hdata idx hidx sz ret buf' s'' hreadn =>
    -- the peek shows the newline
    obtain ⟨hsame, hcalls⟩ := Source.peek_keeps hpeek
    obtain ⟨htake, hle, -⟩ := Source.peek_done (by omega) hpeek
    have hline : newline ∈ data := List.idxOf_lt_length_iff.mp hidx
    have hsz : sz ≤ data.length := hidx
    have hshown : s'.incoming.take sz = data.take sz := by
      have hprefix := congrArg (List.take sz) htake
      rw [List.take_take, Nat.min_eq_left hsz] at hprefix
      rw [hsame, hprefix]
    obtain ⟨ret', calls, hsuffix, hread⟩ := readn_shown (buf.store pstr data) pstr sz
      (hs.suffix hcalls)
    obtain ⟨rfl, rfl, rfl⟩ : ret = ret' ∧ buf' = _ ∧ s'' = _ := by
      simpa only [Prod.mk.injEq] using hreadn.symm.trans hread
    have hfound := LineRead.found pstr buf ⟨_, (take_eq_append htake hle).symm⟩ hsz
    rw [← hshown] at hfound
    rw [lineLength_newline htake hle hline, ← hsame]
    exact ⟨total + sz, _, calls, hsuffix.trans hcalls, rfl, hsame ▸ hfound⟩
  | case5 left pstr total buf s hleft data s' hpeek hdata idx hidx ret r ih =>
    -- the peek shows no newline: the line goes on behind its bytes
    obtain ⟨hsame, hcalls⟩ := Source.peek_keeps hpeek
    obtain ⟨htake, hle, -⟩ := Source.peek_done (by omega) hpeek
    have hline : newline ∉ data := fun h => hidx (List.idxOf_lt_length_iff.mpr h)
    obtain ⟨ret', calls, hsuffix, hread⟩ := readn_shown (buf.store pstr data) pstr ret
      (hs.suffix hcalls)
    have hr : r = (ret', (buf.store pstr data).store pstr data, ⟨s.incoming.drop ret, calls⟩) := by
      rw [hsame, ← htake] at hread
      exact hread
    rw [hr] at ih ⊢
    obtain ⟨ret'', buf', calls', hsuffix', hrest, hread'⟩ := ih (hs.suffix (hsuffix.trans hcalls))
    have hleft' : (left - ret).toNat = left.toNat - data.length := by omega
    rw [hleft'] at hrest hread'
    refine ⟨ret'', buf', calls', hsuffix'.trans (hsuffix.trans hcalls), ?_, ?_⟩
    · rw [hrest, lineLength_split htake hle hline, ← List.drop_drop]
    · rw [lineLength_split htake hle hline, take_eq_append htake hle]
      exact hread'.piece
  | case6 left pstr total buf s hleft =>
    have hzero : left.toNat = 0 := by omega
    refine ⟨total - left, buf.store pstr [0], s.calls, List.suffix_rfl, ?_, ?_⟩
    · rw [hzero, lineLength_zero, List.drop_zero]
    · rw [hzero, lineLength_zero, List.take_zero]
      exact .nil pstr buf

/-- When every call transfers all it can, the first peek shows all there is, and that is stored. -/
theorem readLineFrom_shown (len left : Int) (pstr : Nat) (total : Int) (buf : Buffer)
    (incoming : Str) (i : Nat) (hi : i < (incoming.take left.toNat).length) :
    pstr + i ∈ (readLineFrom len left pstr total buf ⟨incoming, []⟩).2.1.written := by
  have hpeek : (Source.mk incoming []).peek left.toNat =
      (.done (incoming.take left.toNat), ⟨incoming, []⟩) := rfl
  have hs : Healthy (Source.mk incoming []).calls := fun c hc => absurd hc List.not_mem_nil
  have hleft : 0 < left := by
    rw [List.length_take] at hi
    omega
  have hmem : pstr + i ∈ (buf.store pstr (incoming.take left.toNat)).written :=
    Buffer.mem_store_written.mpr (.inr ⟨Nat.le_add_right pstr i, Nat.add_lt_add_left hi pstr⟩)
  unfold readLineFrom
  rw [if_pos hleft]
  split
  · next h => cases hpeek.symm.trans h
  · next h => cases hpeek.symm.trans h
  · next data s' h =>
    obtain ⟨hdata, rfl⟩ := Prod.mk.inj (hpeek.symm.trans h)
    obtain rfl := Result.done.inj hdata
    split
    · next hnil =>
      rw [hnil, List.length_nil] at hi
      exact absurd hi (Nat.not_lt_zero i)
    · dsimp only
      split
      · obtain ⟨ret, calls, -, hread⟩ := readn_shown (buf.store pstr (incoming.take left.toNat)) pstr
          ((incoming.take left.toNat).idxOf newline + 1) hs
        rw [hread]
        dsimp only
        simp only [Buffer.mem_store_written] at hmem ⊢
        exact .inl (.inl hmem)
      · obtain ⟨ret, calls, hsuffix, hread⟩ := readn_shown
          (buf.store pstr (incoming.take left.toNat)) pstr (incoming.take left.toNat).length hs
        rw [hread]
        dsimp only
        obtain ⟨ret', buf', calls', -, hrest, hline⟩ := readLineFrom_eq len
          (left - (incoming.take left.toNat).length) (pstr + (incoming.take left.toNat).length)
          (total + (incoming.take left.toNat).length) _ (s := ⟨_, calls⟩) (hs.suffix hsuffix)
        rw [hrest]
        exact hline.old _ (Buffer.mem_store_written.mpr (.inl hmem))

end LightSearch
