import Mathlib.Algebra.Ring.Int.Defs
import Mathlib.Algebra.Ring.Nat
import LightSearch.Lib.Cxx

/-!
# Stream sockets and the buffers they fill

A stream socket hands out its bytes in pieces: each `read`, `recv` and `write` transfers some
non-empty prefix of what was asked for, or is interrupted by a signal and has to be made again. Which
of the two happens is up to the kernel, so a socket carries the outcomes of its next calls
(`Outcome`); a call after the last of them transfers all it can. A loop that returns makes finitely
many calls, so the lists of outcomes are all its executions.

`readFully` and `writeFully` are the usual loops around `read` and `write`. When no call fails, the
pieces do not matter (`readFully_eq`, `writeFully_eq`): a reader stores the next bytes of the stream
one after the other, and a writer sends its bytes in order.

A buffer records the index of every cell that was written, also past its end.
-/

set_option autoImplicit false

namespace Posix

open Cxx

/-! ## `int` -/

/-- The value of an `int` computed as `n`: 32 bits, two's complement. -/
def int32 (n : Int) : Int := n.bmod (2 ^ 32)

theorem int32_eq {n : Int} (low : -2 ^ 31 ≤ n) (high : n < 2 ^ 31) : int32 n = n :=
  Int.bmod_eq_of_le (by omega) (by omega)

/-- Adding one and taking it off again gives the same `int`, whether or not the sum overflows. -/
theorem int32_add_sub (n : Int) : int32 (int32 (int32 n + 1) - 1) = int32 n := by
  have h : int32 (int32 (int32 n + 1) - 1) = int32 (int32 n + 1 - 1) := Int.bmod_sub_bmod
  rw [h, Int.add_sub_cancel]
  exact Int.bmod_bmod

/-- The bytes of an `int` in memory, the lowest first. -/
def intBytes (n : Int) : Str :=
  let m := (n % 2 ^ 32).toNat
  [m, m / 2 ^ 8, m / 2 ^ 16, m / 2 ^ 24].map UInt8.ofNat

/-- The number whose digits to the base 256 are the bytes, the lowest first. -/
def natOfBytes : Str → Nat
  | [] => 0
  | ch :: bytes => ch.toNat + 2 ^ 8 * natOfBytes bytes

/-- The `int` that some bytes in memory are. -/
def bytesInt (bytes : Str) : Int := int32 (natOfBytes bytes)

@[simp] theorem length_intBytes (n : Int) : (intBytes n).length = 4 := rfl

theorem natOfBytes_intBytes (n : Int) : natOfBytes (intBytes n) = (n % 2 ^ 32).toNat := by
  have h : (n % 2 ^ 32).toNat < 2 ^ 32 := by omega
  simp only [intBytes, List.map_cons, List.map_nil, natOfBytes, UInt8.toNat_ofNat']
  omega

theorem bytesInt_intBytes (n : Int) : bytesInt (intBytes n) = int32 n := by
  have h : 0 ≤ n % 2 ^ 32 := Int.emod_nonneg n (by omega)
  unfold bytesInt int32
  rw [natOfBytes_intBytes, Int.toNat_of_nonneg h]
  exact Int.emod_bmod n (2 ^ 32)

/-! ## Buffers -/

/-- A `char` array: its cells, and the indices written so far. -/
structure Buffer where
  cells : Nat → UInt8
  written : List Nat

namespace Buffer

/-- An array that starts with some bytes and goes on with zeros. -/
def ofBytes (bytes : Str) : Buffer := ⟨fun i => (bytes[i]?).getD 0, []⟩

/-- Copy some bytes to the cells from `pos` on. -/
def store (b : Buffer) (pos : Nat) (data : Str) : Buffer :=
  { cells := fun i => if i < pos then b.cells i else (data[i - pos]?).getD (b.cells i)
    written := b.written ++ List.range' pos data.length }

/-- The `n` bytes from `pos` on. -/
def load (b : Buffer) (pos n : Nat) : Str := (List.range' pos n).map b.cells

theorem store_cells_lt {b : Buffer} {pos i : Nat} (data : Str) (h : i < pos) :
    (b.store pos data).cells i = b.cells i := if_pos h

theorem store_cells {b : Buffer} {pos i : Nat} {data : Str} (h : i < data.length) :
    (b.store pos data).cells (pos + i) = data[i] := by
  simp only [store, Nat.not_lt.mpr (Nat.le_add_right pos i), ↓reduceIte, Nat.add_sub_cancel_left,
    List.getElem?_eq_getElem h, Option.getD_some]

/-- A single byte. -/
theorem store_cells_self (b : Buffer) (pos : Nat) (ch : UInt8) :
    (b.store pos [ch]).cells pos = ch := by
  have h : (b.store pos [ch]).cells (pos + 0) = [ch][0] := store_cells Nat.zero_lt_one
  exact h

theorem store_cells_ge {b : Buffer} {pos i : Nat} {data : Str} (h : pos + data.length ≤ i) :
    (b.store pos data).cells i = b.cells i := by
  have hpos : ¬ i < pos := by omega
  have hnone : data[i - pos]? = none := List.getElem?_eq_none (by omega)
  simp only [store, hpos, ↓reduceIte, hnone, Option.getD_none]

theorem ofBytes_cells {bytes : Str} {i : Nat} (h : i < bytes.length) :
    (ofBytes bytes).cells i = bytes[i] := by
  simp only [ofBytes, List.getElem?_eq_getElem h, Option.getD_some]

theorem mem_store_written {b : Buffer} {pos i : Nat} {data : Str} :
    i ∈ (b.store pos data).written ↔ i ∈ b.written ∨ pos ≤ i ∧ i < pos + data.length := by
  simp only [store, List.mem_append, List.mem_range'_1]

@[simp] theorem store_nil (b : Buffer) (pos : Nat) : b.store pos [] = b := by
  cases b with
  | mk cells written =>
    simp only [store, List.getElem?_nil, Option.getD_none, ite_self, List.length_nil,
      List.range'_zero, List.append_nil]

/-- Two pieces stored one behind the other are their concatenation. -/
theorem store_append (b : Buffer) (pos : Nat) (data more : Str) :
    (b.store pos data).store (pos + data.length) more = b.store pos (data ++ more) := by
  have hcells : ∀ i, ((b.store pos data).store (pos + data.length) more).cells i =
      (b.store pos (data ++ more)).cells i := by
    intro i
    simp only [store]
    by_cases hbefore : i < pos
    · have h : i < pos + data.length := by omega
      simp only [hbefore, h, ↓reduceIte]
    · by_cases hdata : i < pos + data.length
      · have h : i - pos < data.length := by omega
        simp only [hbefore, hdata, ↓reduceIte, List.getElem?_append_left h]
      · have h : data.length ≤ i - pos := by omega
        have hnone : data[i - pos]? = none := List.getElem?_eq_none h
        have hsub : i - (pos + data.length) = i - pos - data.length := by omega
        simp only [hbefore, hdata, ↓reduceIte, List.getElem?_append_right h, hnone,
          Option.getD_none, hsub]
  have hwritten : ((b.store pos data).store (pos + data.length) more).written =
      (b.store pos (data ++ more)).written := by
    simp only [store, List.append_assoc, List.length_append, List.range'_append_1]
  exact congrArg₂ Buffer.mk (funext hcells) hwritten

theorem load_eq {b : Buffer} {pos : Nat} {data : Str}
    (h : ∀ (i : Nat) (hi : i < data.length), b.cells (pos + i) = data[i]) :
    b.load pos data.length = data := by
  apply List.ext_getElem
  · simp only [load, List.length_map, List.length_range']
  · intro i hi hdata
    simp only [load, List.getElem_map, List.getElem_range', Nat.one_mul]
    exact h i hdata

theorem load_add (b : Buffer) (pos n k : Nat) :
    b.load pos (n + k) = b.load pos n ++ b.load (pos + n) k := by
  unfold load
  rw [← List.map_append, List.range'_append_1]

theorem load_succ (b : Buffer) (pos n : Nat) :
    b.load pos (n + 1) = b.cells pos :: b.load (pos + 1) n := rfl

/-- The string in a buffer whose cells are a text and a NUL. -/
theorem cstr_load {b : Buffer} {text : Str} {size : Nat} (hsize : text.length < size)
    (htext : b.load 0 text.length = text) (hnul : b.cells text.length = 0) (clean : 0 ∉ text) :
    cstr (b.load 0 size) = text := by
  have hsplit : size = text.length + (size - text.length - 1 + 1) := by omega
  rw [hsplit, load_add, htext, Nat.zero_add, load_succ, hnul, cstr_append_zero clean]

/-- What was stored is there. -/
theorem load_store (b : Buffer) (pos : Nat) (data : Str) :
    (b.store pos data).load pos data.length = data :=
  load_eq fun _ hi => store_cells hi

end Buffer

/-! ## System calls -/

/-- What the kernel does in a call: it returns `EINTR`, it returns another error, or it transfers at
most `k + 1` bytes. -/
inductive Outcome where
  | interrupted
  | failed
  | upTo (k : Nat)
  deriving DecidableEq

/-- What a call returns to the program. -/
inductive Result (α : Type) where
  | interrupted
  | failed
  | done (a : α)

/-- No call fails with an error other than `EINTR`. -/
def Healthy (calls : List Outcome) : Prop := ∀ c ∈ calls, c ≠ .failed

instance (calls : List Outcome) : Decidable (Healthy calls) :=
  inferInstanceAs (Decidable (∀ c ∈ calls, c ≠ .failed))

theorem Healthy.suffix {calls later : List Outcome} (h : Healthy calls) (hlater : later <:+ calls) :
    Healthy later := fun c hc => h c (hlater.subset hc)

/-- The reading end of a stream: the bytes the peer sends until it closes, and the outcomes of the
next calls. -/
structure Source where
  incoming : Str
  calls : List Outcome

/-- `recv` with `MSG_PEEK`: the bytes stay in the stream. No bytes mean the end of the stream. -/
def Source.peek (s : Source) (n : Nat) : Result Str × Source :=
  match s.calls with
  | [] => (.done (s.incoming.take n), s)
  | .interrupted :: calls => (.interrupted, { s with calls := calls })
  | .failed :: calls => (.failed, { s with calls := calls })
  | .upTo k :: calls => (.done (s.incoming.take (min n (k + 1))), { s with calls := calls })

/-- `read`. -/
def Source.read (s : Source) (n : Nat) : Result Str × Source :=
  match s.peek n with
  | (.done data, s) => (.done data, { s with incoming := s.incoming.drop data.length })
  | (r, s) => (r, s)

/-- The writing end of a stream: the bytes sent so far, and the outcomes of the next calls. -/
structure Sink where
  sent : Str
  calls : List Outcome

/-- `write` of the first `n` of some bytes: how many of them were sent. -/
def Sink.write (s : Sink) (data : Str) (n : Nat) : Result Nat × Sink :=
  match s.calls with
  | [] => (.done n, { s with sent := s.sent ++ data.take n })
  | .interrupted :: calls => (.interrupted, { s with calls := calls })
  | .failed :: calls => (.failed, { s with calls := calls })
  | .upTo k :: calls =>
    (.done (min n (k + 1)), { sent := s.sent ++ data.take (min n (k + 1)), calls := calls })

/-- An interrupted call used up an outcome. -/
theorem Source.peek_interrupted {s s' : Source} {n : Nat} (h : s.peek n = (.interrupted, s')) :
    s'.calls.length < s.calls.length := by
  unfold Source.peek at h
  split at h
  · cases h
  · next hcalls =>
    cases h
    rw [hcalls]
    exact Nat.lt_succ_self _
  · cases h
  · cases h

theorem Source.read_interrupted {s s' : Source} {n : Nat} (h : s.read n = (.interrupted, s')) :
    s'.calls.length < s.calls.length := by
  unfold Source.read at h
  split at h
  · cases h
  · next hpeek =>
    cases h
    exact peek_interrupted hpeek

theorem Sink.write_interrupted {s s' : Sink} {data : Str} {n : Nat}
    (h : s.write data n = (.interrupted, s')) : s'.calls.length < s.calls.length := by
  unfold Sink.write at h
  split at h
  · cases h
  · next hcalls =>
    cases h
    rw [hcalls]
    exact Nat.lt_succ_self _
  · cases h
  · cases h

/-- A peek leaves the stream as it is, and uses up one outcome at most. -/
theorem Source.peek_keeps {s s' : Source} {n : Nat} {r : Result Str} (h : s.peek n = (r, s')) :
    s'.incoming = s.incoming ∧ s'.calls <:+ s.calls := by
  unfold peek at h
  split at h
  · cases h
    exact ⟨rfl, List.suffix_rfl⟩
  all_goals
    next hcalls =>
      cases h
      exact ⟨rfl, hcalls ▸ List.suffix_cons _ _⟩

theorem Source.peek_ne_failed {s s' : Source} {n : Nat} (hs : Healthy s.calls) :
    s.peek n ≠ (.failed, s') := by
  intro h
  unfold peek at h
  split at h
  · cases h
  · cases h
  · next hcalls => exact hs .failed (hcalls ▸ List.mem_cons_self) rfl
  · cases h

/-- What a peek shows: some first bytes, none only at the end of the stream. -/
theorem Source.peek_done {s s' : Source} {n : Nat} {data : Str} (hn : 0 < n)
    (h : s.peek n = (.done data, s')) :
    data = s.incoming.take data.length ∧ data.length ≤ n ∧ (data = [] → s.incoming = []) := by
  -- a piece of at most `k` bytes
  have hpiece : ∀ k, 0 < k → k ≤ n → s.incoming.take k = data →
      data = s.incoming.take data.length ∧ data.length ≤ n ∧ (data = [] → s.incoming = []) := by
    intro k hk hkn htake
    subst htake
    rw [List.length_take]
    refine ⟨List.take_eq_take_min, by omega, fun h => ?_⟩
    have hlen := congrArg List.length h
    rw [List.length_take, List.length_nil] at hlen
    apply List.length_eq_zero_iff.mp
    omega
  unfold peek at h
  split at h
  · exact hpiece n hn (Nat.le_refl n) (Result.done.inj (Prod.mk.inj h).1)
  · cases h
  · cases h
  · next k _ _ => exact hpiece (min n (k + 1)) (by omega) (by omega) (Result.done.inj (Prod.mk.inj h).1)

theorem Source.read_calls {s s' : Source} {n : Nat} {r : Result Str} (h : s.read n = (r, s')) :
    s'.calls <:+ s.calls := by
  unfold read at h
  split at h
  · next hpeek =>
    cases h
    exact (peek_keeps hpeek).2
  · next hpeek =>
    cases h
    exact (peek_keeps hpeek).2

theorem Source.read_ne_failed {s s' : Source} {n : Nat} (hs : Healthy s.calls) :
    s.read n ≠ (.failed, s') := by
  intro h
  unfold read at h
  split at h
  · cases h
  · next hpeek =>
    cases h
    exact peek_ne_failed hs hpeek

/-- An interrupted `read` takes nothing. -/
theorem Source.read_again {s s' : Source} {n : Nat} (h : s.read n = (.interrupted, s')) :
    s'.incoming = s.incoming := by
  unfold read at h
  split at h
  · cases h
  · next hpeek =>
    cases h
    exact (peek_keeps hpeek).1

/-- `read` takes the bytes it returns out of the stream. -/
theorem Source.read_done {s s' : Source} {n : Nat} {data : Str} (hn : 0 < n)
    (h : s.read n = (.done data, s')) :
    data = s.incoming.take data.length ∧ data.length ≤ n ∧ (data = [] → s.incoming = []) ∧
      s'.incoming = s.incoming.drop data.length := by
  unfold read at h
  split at h
  · next hpeek =>
    cases h
    obtain ⟨htake, hle, hend⟩ := peek_done hn hpeek
    exact ⟨htake, hle, hend, congrArg (List.drop _) (peek_keeps hpeek).1⟩
  · next hnot _ =>
    cases h
    exact absurd rfl (hnot data)

theorem Sink.write_calls {s s' : Sink} {data : Str} {n : Nat} {r : Result Nat}
    (h : s.write data n = (r, s')) : s'.calls <:+ s.calls := by
  unfold write at h
  split at h
  · cases h
    exact List.suffix_rfl
  all_goals
    next hcalls =>
      cases h
      exact hcalls ▸ List.suffix_cons _ _

theorem Sink.write_ne_failed {s s' : Sink} {data : Str} {n : Nat} (hs : Healthy s.calls) :
    s.write data n ≠ (.failed, s') := by
  intro h
  unfold write at h
  split at h
  · cases h
  · cases h
  · next hcalls => exact hs .failed (hcalls ▸ List.mem_cons_self) rfl
  · cases h

/-- An interrupted `write` sends nothing. -/
theorem Sink.write_again {s s' : Sink} {data : Str} {n : Nat}
    (h : s.write data n = (.interrupted, s')) : s'.sent = s.sent := by
  unfold write at h
  split at h
  · cases h
  · cases h
    rfl
  · cases h
  · cases h

/-- `write` sends some first bytes. -/
theorem Sink.write_done {s s' : Sink} {data : Str} {n k : Nat} (hn : 0 < n)
    (h : s.write data n = (.done k, s')) : 0 < k ∧ k ≤ n ∧ s'.sent = s.sent ++ data.take k := by
  unfold write at h
  split at h
  · cases h
    exact ⟨hn, Nat.le_refl n, rfl⟩
  · cases h
  · cases h
  · cases h
    exact ⟨by omega, by omega, rfl⟩

/-! ## The loops -/

/-- Read until `left` bytes are stored from `pstr` on, or the stream ends: the number of bytes read
of `len`, or `failed` after an error. -/
def readFully (failed len left : Int) (pstr : Nat) (b : Buffer) (s : Source) :
    Int × Buffer × Source :=
  if 0 < left then
    match _hread : s.read left.toNat with
    | (.interrupted, s') => readFully failed len left pstr b s'
    | (.failed, s') => (failed, b, s')
    | (.done data, s') =>
      if data = [] then (len - left, b, s')
      else readFully failed len (left - data.length) (pstr + data.length) (b.store pstr data) s'
  else (len - left, b, s)
termination_by (left.toNat, s.calls.length)
decreasing_by
  · exact .right _ (Source.read_interrupted _hread)
  · have hdata : 0 < data.length := List.length_pos_iff.mpr ‹_›
    exact .left _ _ (by omega)

/-- Write until the first `left` of some bytes are sent. -/
def writeFully (failed len left : Int) (data : Str) (s : Sink) : Int × Sink :=
  if 0 < left then
    match _hwrite : s.write data left.toNat with
    | (.interrupted, s') => writeFully failed len left data s'
    | (.failed, s') => (failed, s')
    | (.done n, s') =>
      if n = 0 then (len - left, s') else writeFully failed len (left - n) (data.drop n) s'
  else (len - left, s)
termination_by (left.toNat, s.calls.length)
decreasing_by
  · exact .right _ (Sink.write_interrupted _hwrite)
  · exact .left _ _ (by omega)

/-- The first bytes of a stream are a first piece and the first bytes of the rest. -/
theorem take_eq_append {data incoming : Str} {n : Nat} (htake : data = incoming.take data.length)
    (hle : data.length ≤ n) :
    incoming.take n = data ++ (incoming.drop data.length).take (n - data.length) := by
  have hsplit := List.take_add (l := incoming) (i := data.length) (j := n - data.length)
  rw [← htake, Nat.add_sub_cancel' hle] at hsplit
  exact hsplit

/-- **However the stream is cut, the reader stores its next bytes.** -/
theorem readFully_eq (failed len left : Int) (pstr : Nat) (b : Buffer) {s : Source}
    (hs : Healthy s.calls) :
    ∃ calls, calls <:+ s.calls ∧ readFully failed len left pstr b s =
      (len - left + (s.incoming.take left.toNat).length, b.store pstr (s.incoming.take left.toNat),
        ⟨s.incoming.drop left.toNat, calls⟩) := by
  fun_induction readFully failed len left pstr b s with
  | case1 left pstr b s hleft s' hread ih =>
    have hcalls := Source.read_calls hread
    obtain ⟨calls, hsuffix, hrest⟩ := ih (hs.suffix hcalls)
    rw [Source.read_again hread] at hrest
    exact ⟨calls, hsuffix.trans hcalls, hrest⟩
  | case2 left pstr b s hleft s' hread => exact absurd hread (Source.read_ne_failed hs)
  | case3 left pstr b s hleft s' hread =>
    -- the end of the stream
    obtain ⟨-, -, hend, hdrop⟩ := Source.read_done (by omega) hread
    refine ⟨s'.calls, Source.read_calls hread, ?_⟩
    rw [hend rfl] at hdrop ⊢
    cases s' with
    | mk incoming calls =>
      obtain rfl : incoming = [] := hdrop
      simp only [List.take_nil, List.drop_nil, List.length_nil, Int.ofNat_zero, Int.add_zero,
        Buffer.store_nil]
  | case4 left pstr b s hleft data s' hread hdata ih =>
    -- a piece, and then the rest of the bytes behind it
    have hcalls := Source.read_calls hread
    obtain ⟨htake, hle, -, hdrop⟩ := Source.read_done (by omega) hread
    obtain ⟨calls, hsuffix, hrest⟩ := ih (hs.suffix hcalls)
    have hsplit := take_eq_append htake hle
    have hleft' : (left - data.length).toNat = left.toNat - data.length := by omega
    have hskip : (s.incoming.drop data.length).drop (left.toNat - data.length) =
        s.incoming.drop left.toNat := by
      rw [List.drop_drop, Nat.add_sub_cancel' hle]
    refine ⟨calls, hsuffix.trans hcalls, ?_⟩
    rw [hrest, hdrop, hleft', Buffer.store_append, hskip, ← hsplit]
    congr 1
    rw [hsplit, List.length_append]
    omega
  | case5 left pstr b s hleft =>
    have hzero : left.toNat = 0 := by omega
    refine ⟨s.calls, List.suffix_rfl, ?_⟩
    simp only [hzero, List.take_zero, List.drop_zero, List.length_nil, Int.ofNat_zero, Int.add_zero,
      Buffer.store_nil]

/-- **However the writes are cut, the bytes are sent in order.** -/
theorem writeFully_eq (failed len left : Int) (data : Str) {s : Sink} (hs : Healthy s.calls) :
    ∃ ret s', writeFully failed len left data s = (ret, s') ∧
      s'.sent = s.sent ++ data.take left.toNat ∧ s'.calls <:+ s.calls := by
  fun_induction writeFully failed len left data s with
  | case1 left data s hpos s' hwrite ih =>
    have hcalls := Sink.write_calls hwrite
    obtain ⟨ret, s'', hrest, hsent, hsuffix⟩ := ih (hs.suffix hcalls)
    rw [Sink.write_again hwrite] at hsent
    exact ⟨ret, s'', hrest, hsent, hsuffix.trans hcalls⟩
  | case2 left data s hpos s' hwrite => exact absurd hwrite (Sink.write_ne_failed hs)
  | case3 left data s hpos s' hwrite =>
    obtain ⟨hk, -, -⟩ := Sink.write_done (by omega) hwrite
    exact absurd hk (Nat.lt_irrefl 0)
  | case4 left data s hpos n s' hwrite hn ih =>
    obtain ⟨-, hle, hsent⟩ := Sink.write_done (by omega) hwrite
    have hcalls := Sink.write_calls hwrite
    obtain ⟨ret, s'', hrest, hsent', hsuffix⟩ := ih (hs.suffix hcalls)
    refine ⟨ret, s'', hrest, ?_, hsuffix.trans hcalls⟩
    rw [hsent', hsent, List.append_assoc, ← List.take_add]
    congr 2
    omega
  | case5 left data s hpos =>
    have hzero : left.toNat = 0 := by omega
    refine ⟨len - left, s, rfl, ?_, List.suffix_rfl⟩
    rw [hzero, List.take_zero, List.append_nil]

end Posix
