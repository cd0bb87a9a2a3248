import Mathlib.Tactic.IntervalCases
import LightSearch.Lib.Cxx

/-!
# The hash of a keyword

`hashlittle2`, twelve bytes at a time. It reads the key in three ways: in words of 32 bits when the key
lies at a multiple of four and the machine is little-endian, in halves of words when it lies at a
multiple of two, and else byte by byte. The last words are read whole, with what stands behind the key in
memory, and the bytes that do not belong to it are masked off.

The three ways come to the same (`reader_plain`). So the hash of a key depends on its bytes alone
(`hashlittle2_eq`, `jenkins_place`), not on where it lies, on what stands behind it or on the machine.
-/

set_option autoImplicit false

namespace LightSearch.Simhash

open Cxx

/-- The internal state. -/
@[ext] structure Abc where
  a : UInt32
  b : UInt32
  c : UInt32
  deriving DecidableEq

/-- `rot`. -/
def rot (x k : UInt32) : UInt32 := x <<< k ||| x >>> (32 - k)

/-- `mix`. -/
def mix (s : Abc) : Abc :=
  let ⟨a, b, c⟩ := s
  let a := a - c; let a := a ^^^ rot c 4; let c := c + b
  let b := b - a; let b := b ^^^ rot a 6; let a := a + c
  let c := c - b; let c := c ^^^ rot b 8; let b := b + a
  let a := a - c; let a := a ^^^ rot c 16; let c := c + b
  let b := b - a; let b := b ^^^ rot a 19; let a := a + c
  let c := c - b; let c := c ^^^ rot b 4; let b := b + a
  ⟨a, b, c⟩

/-- `final`. -/
def final (s : Abc) : Abc :=
  let ⟨a, b, c⟩ := s
  let c := c ^^^ b; let c := c - rot b 14
  let a := a ^^^ c; let a := a - rot c 11
  let b := b ^^^ a; let b := b - rot a 25
  let c := c ^^^ b; let c := c - rot b 16
  let a := a ^^^ c; let a := a - rot c 4
  let b := b ^^^ a; let b := b - rot a 14
  let c := c ^^^ b; let c := c - rot b 24
  ⟨a, b, c⟩

/-- The memory from a pointer on. -/
abbrev Memory := Nat → UInt8

/-- `k8[i]`, as it is added to a word. -/
def byte (m : Memory) (i : Nat) : UInt32 := (m i).toUInt32

/-- `k[i]` of 16 bits, on a little-endian machine. -/
def half (m : Memory) (i : Nat) : UInt32 := byte m (2 * i) ||| byte m (2 * i + 1) <<< 8

/-- `k[i]` of 32 bits, on a little-endian machine. -/
def word (m : Memory) (i : Nat) : UInt32 := half m (2 * i) ||| half m (2 * i + 1) <<< 16

/-- How a block of twelve bytes and the last bytes are added to the state. -/
structure Reader where
  addBlock : Memory → Abc → Abc
  addTail : Memory → Nat → Abc → Abc

/-- The reads of 32 bits. -/
def words : Reader where
  addBlock m s := ⟨s.a + word m 0, s.b + word m 1, s.c + word m 2⟩
  addTail m length s :=
    match length with
    | 12 => ⟨s.a + word m 0, s.b + word m 1, s.c + word m 2⟩
    | 11 => ⟨s.a + word m 0, s.b + word m 1, s.c + (word m 2 &&& 0xffffff)⟩
    | 10 => ⟨s.a + word m 0, s.b + word m 1, s.c + (word m 2 &&& 0xffff)⟩
    | 9 => ⟨s.a + word m 0, s.b + word m 1, s.c + (word m 2 &&& 0xff)⟩
    | 8 => ⟨s.a + word m 0, s.b + word m 1, s.c⟩
    | 7 => ⟨s.a + word m 0, s.b + (word m 1 &&& 0xffffff), s.c⟩
    | 6 => ⟨s.a + word m 0, s.b + (word m 1 &&& 0xffff), s.c⟩
    | 5 => ⟨s.a + word m 0, s.b + (word m 1 &&& 0xff), s.c⟩
    | 4 => ⟨s.a + word m 0, s.b, s.c⟩
    | 3 => ⟨s.a + (word m 0 &&& 0xffffff), s.b, s.c⟩
    | 2 => ⟨s.a + (word m 0 &&& 0xffff), s.b, s.c⟩
    | 1 => ⟨s.a + (word m 0 &&& 0xff), s.b, s.c⟩
    | _ => s

/-- `k[i] + (((uint32_t)k[i + 1]) << 16)`. -/
def halves2 (m : Memory) (i : Nat) : UInt32 := half m i + half m (i + 1) <<< 16

/-- The reads of 16 bits; the cases of the switch fall through to the next break. -/
def halves : Reader where
  addBlock m s := ⟨s.a + halves2 m 0, s.b + halves2 m 2, s.c + halves2 m 4⟩
  addTail m length s :=
    match length with
    | 12 => ⟨s.a + halves2 m 0, s.b + halves2 m 2, s.c + halves2 m 4⟩
    | 11 => ⟨s.a + halves2 m 0, s.b + halves2 m 2, s.c + byte m 10 <<< 16 + half m 4⟩
    | 10 => ⟨s.a + halves2 m 0, s.b + halves2 m 2, s.c + half m 4⟩
    | 9 => ⟨s.a + halves2 m 0, s.b + halves2 m 2, s.c + byte m 8⟩
    | 8 => ⟨s.a + halves2 m 0, s.b + halves2 m 2, s.c⟩
    | 7 => ⟨s.a + halves2 m 0, s.b + byte m 6 <<< 16 + half m 2, s.c⟩
    | 6 => ⟨s.a + halves2 m 0, s.b + half m 2, s.c⟩
    | 5 => ⟨s.a + halves2 m 0, s.b + byte m 4, s.c⟩
    | 4 => ⟨s.a + halves2 m 0, s.b, s.c⟩
    | 3 => ⟨s.a + byte m 2 <<< 16 + half m 0, s.b, s.c⟩
    | 2 => ⟨s.a + half m 0, s.b, s.c⟩
    | 1 => ⟨s.a + byte m 0, s.b, s.c⟩
    | _ => s

/-- Four bytes, added one after the other. -/
def addBytes (x : UInt32) (m : Memory) (i : Nat) : UInt32 :=
  x + byte m i + byte m (i + 1) <<< 8 + byte m (i + 2) <<< 16 + byte m (i + 3) <<< 24

/-- `n` bytes of a word, the last one first, as the cases of the switch fall through. -/
def addDown (x : UInt32) (m : Memory) (i : Nat) : Nat → UInt32
  | 0 => x
  | n + 1 => addDown (x + byte m (i + n) <<< UInt32.ofNat (8 * n)) m i n

/-- The reads of bytes. -/
def bytes : Reader where
  addBlock m s := ⟨addBytes s.a m 0, addBytes s.b m 4, addBytes s.c m 8⟩
  addTail m length s :=
    ⟨addDown s.a m 0 (min 4 length), addDown s.b m 4 (min 4 (length - 4)),
      addDown s.c m 8 (min 4 (length - 8))⟩

/-- `while (length > 12)`: the memory, the length and the state behind the loop. -/
def blocks (r : Reader) : Nat → Memory → Nat → Abc → Memory × Nat × Abc
  | 0, m, length, s => (m, length, s)
  | rounds + 1, m, length, s =>
    if length > 12 then
      blocks r rounds (fun i => m (12 + i)) (length - 12) (mix (r.addBlock m s))
    else (m, length, s)

/-- Which way the key is read. -/
def reader (littleEndian : Bool) (address : Nat) : Reader :=
  if littleEndian ∧ address % 4 = 0 then words
  else if littleEndian ∧ address % 2 = 0 then halves
  else bytes

/-- `hashlittle2`: `*pc` and `*pb`. A round takes twelve bytes, so there are no more rounds than bytes. -/
def hashlittle2 (littleEndian : Bool) (address : Nat) (key : Memory) (length : Nat) (pc pb : UInt32) :
    UInt32 × UInt32 :=
  let r := reader littleEndian address
  let a := 0xdeadbeef + UInt32.ofNat length + pc
  let (m, length, s) := blocks r length key length ⟨a, a, a + pb⟩
  if length = 0 then (s.c, s.b)
  else
    let s := final (r.addTail m length s)
    (s.c, s.b)

/-- `operator()` of `jenkins`. -/
def jenkins (littleEndian : Bool) (address : Nat) (data : Memory) (len : Nat) (s : UInt64) : UInt64 :=
  let (a, b) := hashlittle2 littleEndian address data len (s >>> 32).toUInt32
    (s &&& 0xffffffff).toUInt32
  a.toUInt64 <<< 32 ||| b.toUInt64

/-! ## The three ways to read -/

/-- `n` bytes from `i` on as a little-endian number. -/
def value (m : Memory) (i : Nat) : Nat → Nat
  | 0 => 0
  | n + 1 => value m i n + (m (i + n)).toNat * 256 ^ n

theorem value_lt (m : Memory) (i n : Nat) : value m i n < 256 ^ n := by
  induction n with
  | zero => exact Nat.one_pos
  | succ n ih =>
    have hbyte : (m (i + n)).toNat ≤ 255 := Nat.le_of_lt_succ (m (i + n)).toNat_lt
    have hmul := Nat.mul_le_mul_right (256 ^ n) hbyte
    rw [value, Nat.pow_succ]
    omega

theorem value_congr {m m' : Memory} {i n : Nat} (h : ∀ j, i ≤ j → j < i + n → m j = m' j) :
    value m i n = value m' i n := by
  induction n with
  | zero => rfl
  | succ n ih => rw [value, value, ih fun j hij hj => h j hij (by omega), h (i + n) (by omega) (by omega)]

/-- A word with `n` bytes from `i` on. -/
def low (m : Memory) (i n : Nat) : UInt32 := UInt32.ofNat (value m i n)

theorem toNat_low {m : Memory} {i n : Nat} (hn : n ≤ 4) : (low m i n).toNat = value m i n := by
  have hlt := value_lt m i n
  have hpow : 256 ^ n ≤ UInt32.size := Nat.pow_le_pow_right (by decide : 0 < 256) hn
  exact UInt32.toNat_ofNat_of_lt' (hlt.trans_le hpow)

@[simp] theorem low_zero (m : Memory) (i : Nat) : low m i 0 = 0 := rfl

/-- The next byte stands above the others. -/
theorem toNat_byte_shift {m : Memory} {i n : Nat} (hn : n < 4) :
    (byte m i <<< UInt32.ofNat (8 * n)).toNat = (m i).toNat * 256 ^ n := by
  have hshift : (UInt32.ofNat (8 * n)).toNat = 8 * n :=
    UInt32.toNat_ofNat_of_lt' (Nat.lt_trans (by omega : 8 * n < 32) (by decide))
  have hpow : 256 ^ n = 2 ^ (8 * n) := by rw [Nat.pow_mul]
  have hle : 256 ^ n ≤ 256 ^ 3 := Nat.pow_le_pow_right (by decide) (by omega)
  have hmul : (m i).toNat * 256 ^ n ≤ 255 * 256 ^ 3 :=
    Nat.mul_le_mul (Nat.le_of_lt_succ (m i).toNat_lt) hle
  rw [UInt32.toNat_shiftLeft, hshift, Nat.mod_eq_of_lt (by omega : 8 * n < 32), Nat.shiftLeft_eq,
    ← hpow]
  exact Nat.mod_eq_of_lt (by simp only [byte, UInt8.toNat_toUInt32]; omega)

theorem low_succ {m : Memory} {i n : Nat} (hn : n < 4) :
    low m i (n + 1) = low m i n + byte m (i + n) <<< UInt32.ofNat (8 * n) := by
  apply UInt32.toNat.inj
  have hlt := value_lt m i (n + 1)
  have hpow : 256 ^ (n + 1) ≤ 256 ^ 4 := Nat.pow_le_pow_right (by decide) (by omega)
  rw [UInt32.toNat_add, toNat_byte_shift hn, toNat_low (by omega), toNat_low (by omega), value]
  rw [value] at hlt
  exact (Nat.mod_eq_of_lt (by omega)).symm

theorem addDown_eq {m : Memory} {i n : Nat} (hn : n ≤ 4) (x : UInt32) :
    addDown x m i n = x + low m i n := by
  induction n generalizing x with
  | zero => simp [addDown]
  | succ n ih =>
    have hlt : n < 4 := hn
    rw [addDown, ih (by omega), low_succ hlt, UInt32.add_assoc, UInt32.add_comm (low m i n)]

theorem addBytes_eq (x : UInt32) (m : Memory) (i : Nat) : addBytes x m i = x + low m i 4 := by
  have hlow : low m i 4 = byte m i + byte m (i + 1) <<< 8 + byte m (i + 2) <<< 16 +
      byte m (i + 3) <<< 24 := by
    rw [low_succ (by decide), low_succ (by decide), low_succ (by decide), low_succ (by decide),
      low_zero, UInt32.zero_add]
    simp
  rw [hlow, addBytes]
  simp only [UInt32.add_assoc]

/-- Bytes that stand above the others are as well added as put in. -/
theorem or_eq_add {x y : UInt32} {k : Nat} (hx : x.toNat < 2 ^ k) (hy : y.toNat < 2 ^ (32 - k))
    (hk : k < 32) : x ||| y <<< UInt32.ofNat k = x + y <<< UInt32.ofNat k := by
  have hshift : (UInt32.ofNat k).toNat = k := UInt32.toNat_ofNat_of_lt' (Nat.lt_trans hk (by decide))
  have hmul : y.toNat * 2 ^ k < 2 ^ 32 := by
    have hsplit : (2 : Nat) ^ (32 - k) * 2 ^ k = 2 ^ 32 := by
      rw [← Nat.pow_add, Nat.sub_add_cancel hk.le]
    rw [← hsplit]
    exact Nat.mul_lt_mul_of_pos_right hy (Nat.two_pow_pos k)
  have htop : (y <<< UInt32.ofNat k).toNat = y.toNat <<< k := by
    rw [UInt32.toNat_shiftLeft, hshift, Nat.mod_eq_of_lt hk, Nat.mod_eq_of_lt]
    rwa [Nat.shiftLeft_eq]
  apply UInt32.toNat.inj
  have hor := Nat.shiftLeft_add_eq_or_of_lt hx y.toNat
  have hlt : x.toNat ||| y.toNat <<< k < 2 ^ 32 := by
    refine Nat.or_lt_two_pow (hx.trans_le (Nat.pow_le_pow_right (by decide) hk.le)) ?_
    rwa [Nat.shiftLeft_eq]
  rw [UInt32.toNat_or, UInt32.toNat_add, htop, Nat.or_comm, ← hor, Nat.add_comm]
  rw [Nat.or_comm, ← hor, Nat.add_comm] at hlt
  exact (Nat.mod_eq_of_lt hlt).symm

theorem half_eq (m : Memory) (i : Nat) : half m i = low m (2 * i) 2 := by
  have hbyte : ∀ j, (byte m j).toNat < 2 ^ 8 := fun j => by simpa [byte] using (m j).toNat_lt
  have hor := or_eq_add (k := 8) (hbyte (2 * i)) ((hbyte (2 * i + 1)).trans (by decide)) (by decide)
  rw [low_succ (by decide), low_succ (by decide), low_zero, UInt32.zero_add]
  simpa [half] using hor

/-- Two bytes above two others. -/
theorem low_four (m : Memory) (i : Nat) :
    low m i 4 = low m i 2 + low m (i + 2) 2 <<< UInt32.ofNat 16 := by
  apply UInt32.toNat.inj
  have hlt := value_lt m (i + 2) 2
  have hfour := value_lt m i 4
  have hvalue : value m i 4 = value m i 2 + value m (i + 2) 2 * 2 ^ 16 := by
    simp only [value, Nat.add_assoc, Nat.reduceAdd]
    omega
  have htop : (low m (i + 2) 2 <<< UInt32.ofNat 16).toNat = value m (i + 2) 2 * 2 ^ 16 := by
    rw [UInt32.toNat_shiftLeft, toNat_low (by decide), Nat.shiftLeft_eq]
    exact Nat.mod_eq_of_lt (by simp; omega)
  rw [UInt32.toNat_add, htop, toNat_low (by decide), toNat_low (by decide), ← hvalue]
  exact (Nat.mod_eq_of_lt hfour).symm

theorem halves2_eq (m : Memory) (i : Nat) : halves2 m (2 * i) = low m (4 * i) 4 := by
  have hlow : 2 * (2 * i) = 4 * i := by omega
  have hhigh : 2 * (2 * i + 1) = 4 * i + 2 := by omega
  rw [halves2, half_eq, half_eq, hlow, hhigh, low_four]
  rfl

theorem word_eq (m : Memory) (i : Nat) : word m i = low m (4 * i) 4 := by
  have hhalf : ∀ j, (half m j).toNat < 2 ^ 16 := by
    intro j
    rw [half_eq, toNat_low (by decide)]
    exact value_lt m _ 2
  rw [← halves2_eq]
  exact or_eq_add (hhalf _) (hhalf _) (by decide)

/-- The mask leaves the low bytes. -/
theorem low_and (m : Memory) (i : Nat) {n k : Nat} (hn : n ≤ k) (hk : k ≤ 4) :
    low m i k &&& UInt32.ofNat (256 ^ n - 1) = low m i n := by
  have hmod : value m i k % 256 ^ n = value m i n := by
    induction k, hn using Nat.le_induction with
    | base => exact Nat.mod_eq_of_lt (value_lt m i n)
    | succ k hle ih =>
      have hmul : 256 ^ n ∣ (m (i + k)).toNat * 256 ^ k :=
        (Nat.pow_dvd_pow 256 hle).trans (Nat.dvd_mul_left _ _)
      rw [value, Nat.add_mod, ih (by omega), Nat.mod_eq_zero_of_dvd hmul, Nat.add_zero]
      exact Nat.mod_eq_of_lt (value_lt m i n)
  have hpow : (256 : Nat) ^ n = 2 ^ (8 * n) := by rw [Nat.pow_mul]
  have hsize : 256 ^ n ≤ UInt32.size := Nat.pow_le_pow_right (by decide : 0 < 256) (hn.trans hk)
  have hmask : (UInt32.ofNat (256 ^ n - 1)).toNat = 256 ^ n - 1 :=
    UInt32.toNat_ofNat_of_lt' (by have := Nat.one_le_pow n 256 (by decide); omega)
  apply UInt32.toNat.inj
  rw [UInt32.toNat_and, hmask, toNat_low hk, toNat_low (hn.trans hk), ← hmod, hpow,
    Nat.and_two_pow_sub_one_eq_mod]

/-- A reader that adds the bytes of the key, each at its place in the word. -/
structure Reader.Plain (r : Reader) : Prop where
  block : ∀ m s, r.addBlock m s = ⟨s.a + low m 0 4, s.b + low m 4 4, s.c + low m 8 4⟩
  tail : ∀ m length s, length ≤ 12 → r.addTail m length s =
    ⟨s.a + low m 0 (min 4 length), s.b + low m 4 (min 4 (length - 4)),
      s.c + low m 8 (min 4 (length - 8))⟩

theorem bytes_plain : bytes.Plain where
  block m s := by simp only [bytes, addBytes_eq]
  tail m length s _ := by
    simp only [bytes, addDown_eq (Nat.min_le_left 4 _)]

theorem words_plain : words.Plain where
  block m s := by simp only [words, word_eq, Nat.mul_zero, Nat.mul_one, Nat.reduceMul]
  tail m length s hlength := by
    have hthree := fun i => low_and m i (n := 3) (k := 4) (by decide) (by decide)
    have htwo := fun i => low_and m i (n := 2) (k := 4) (by decide) (by decide)
    have hone := fun i => low_and m i (n := 1) (k := 4) (by decide) (by decide)
    simp at hthree htwo hone
    interval_cases length <;> simp [words, word_eq, hthree, htwo, hone]

theorem halves_plain : halves.Plain where
  block m s := by
    have h0 := halves2_eq m 0
    have h2 := halves2_eq m 1
    have h4 := halves2_eq m 2
    simp only [halves, h0, h2, h4]
  tail m length s hlength := by
    have hbyte : ∀ i, byte m i = low m i 1 := by
      intro i
      rw [low_succ (by decide), low_zero, UInt32.zero_add]
      simp
    have hthree : ∀ i x, x + low m (i + 2) 1 <<< 16 + low m i 2 = x + low m i 3 := by
      intro i x
      rw [← hbyte, low_succ (n := 2) (by decide), UInt32.add_assoc, UInt32.add_comm (low m i 2)]
      rfl
    have h0 := halves2_eq m 0
    have h2 := halves2_eq m 1
    have h4 := halves2_eq m 2
    have ha := hthree 0
    have hb := hthree 4
    have hc := hthree 8
    simp only [Nat.mul_zero, Nat.mul_one, Nat.zero_add, Nat.reduceAdd, Nat.reduceMul]
      at h0 h2 h4 ha hb hc
    interval_cases length <;> simp [halves, half_eq, hbyte, h0, h2, h4, ha, hb, hc]

theorem reader_plain (littleEndian : Bool) (address : Nat) : (reader littleEndian address).Plain := by
  unfold reader
  split
  · exact words_plain
  · split
    · exact halves_plain
    · exact bytes_plain

/-! ## The bytes alone -/

theorem low_congr {m m' : Memory} {i n : Nat} (h : ∀ j, i ≤ j → j < i + n → m j = m' j) :
    low m i n = low m' i n := by
  rw [low, low, value_congr h]

/-- The loop leaves at most twelve bytes, and what it reads are bytes of the key. -/
theorem blocks_eq {r r' : Reader} (hr : r.Plain) (hr' : r'.Plain) {rounds length : Nat}
    (hrounds : length ≤ rounds) {m m' : Memory} (hm : ∀ i < length, m i = m' i) (s : Abc) :
    ∃ rest rest' last s', blocks r rounds m length s = (rest, last, s') ∧
      blocks r' rounds m' length s = (rest', last, s') ∧ last ≤ 12 ∧
      ∀ i < last, rest i = rest' i := by
  induction rounds generalizing m m' length s with
  | zero => exact ⟨m, m', length, s, rfl, rfl, by omega, hm⟩
  | succ rounds ih =>
    by_cases hlong : length > 12
    · have hblock : r.addBlock m s = r'.addBlock m' s := by
        rw [hr.block, hr'.block, low_congr fun j hij hj => hm j (by omega),
          low_congr (i := 4) fun j hij hj => hm j (by omega),
          low_congr (i := 8) fun j hij hj => hm j (by omega)]
      rw [blocks, blocks, if_pos hlong, if_pos hlong, hblock]
      exact ih (by omega) (fun i hi => hm (12 + i) (by omega)) _
    · rw [blocks, blocks, if_neg hlong, if_neg hlong]
      exact ⟨m, m', length, s, rfl, rfl, by omega, hm⟩

/-- **The hash of a key** is that of its bytes: whichever way it is read and whatever stands behind it. -/
theorem hashlittle2_eq (littleEndian littleEndian' : Bool) (address address' : Nat)
    {key key' : Memory} {length : Nat} (hkey : ∀ i < length, key i = key' i) (pc pb : UInt32) :
    hashlittle2 littleEndian address key length pc pb =
      hashlittle2 littleEndian' address' key' length pc pb := by
  have hr := reader_plain littleEndian address
  have hr' := reader_plain littleEndian' address'
  unfold hashlittle2
  obtain ⟨rest, rest', last, s, hrun, hrun', hlast, hrest⟩ :=
    blocks_eq hr hr' (Nat.le_refl length) hkey
      ⟨0xdeadbeef + UInt32.ofNat length + pc, 0xdeadbeef + UInt32.ofNat length + pc,
        0xdeadbeef + UInt32.ofNat length + pc + pb⟩
  simp only [hrun, hrun']
  have htail : (reader littleEndian address).addTail rest last s =
      (reader littleEndian' address').addTail rest' last s := by
    rw [hr.tail _ _ _ hlast, hr'.tail _ _ _ hlast, low_congr fun j hij hj => hrest j (by omega),
      low_congr (i := 4) fun j hij hj => hrest j (by omega),
      low_congr (i := 8) fun j hij hj => hrest j (by omega)]
  rw [htail]

/-- **The place of a key does not matter** for its 64 bits. -/
theorem jenkins_place (littleEndian littleEndian' : Bool) (address address' : Nat)
    (behind behind' : Memory) (data : Str) (s : UInt64) :
    jenkins littleEndian address (fun i => data.getD i (behind i)) data.length s =
      jenkins littleEndian' address' (fun i => data.getD i (behind' i)) data.length s := by
  have hbytes : ∀ i < data.length, data.getD i (behind i) = data.getD i (behind' i) := by
    intro i hi
    simp [List.getD_eq_getElem?_getD, List.getElem?_eq_getElem hi]
  unfold jenkins
  rw [hashlittle2_eq littleEndian littleEndian' address address' hbytes]

end LightSearch.Simhash
