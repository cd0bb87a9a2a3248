import LightSearch.Server.SocketIO

/-!
# Requests and replies on a connection

A frame is the length of a payload as an `int`, and the payload. `send` writes one. `receive` reads
the length with `readn`, and the payload with `readLine` into an array of 65534 bytes.

`readLine` is told the length, but it ends at the first newline, and nothing compares the length with
the size of the array. So `receive` takes a whole frame exactly when the payload has no newline
before its last byte (`receive_takes_frame_iff`), and it stays in the array exactly when the bytes it
can be shown and the NUL behind them fit (`inBounds_iff`).
-/

set_option autoImplicit false

namespace LightSearch

open Cxx Posix

/-! ## The functions -/

/-- `TcpConnection::send`. -/
def send (msg : Str) (s : Sink) : Sink :=
  let len := int32 msg.length
  let (_, s) := writen (intBytes len) 4 s
  let (_, s) := writen msg (int32 msg.length) s
  s

/-- `char buff[65534]`. -/
def buffSize : Nat := 65534

/-- The reads of `TcpConnection::receive`, when the uninitialised `len` happens to be `len₀`. -/
def receiveInto (len₀ : Int) (s : Source) : Buffer × Source :=
  let (_, cell, s) := readn (Buffer.ofBytes (intBytes len₀)) 0 4 s
  let len := bytesInt (cell.load 0 4)
  let (_, buff, s) := readLine (Buffer.ofBytes []) (int32 (len + 1)) s
  (buff, s)

/-- `TcpConnection::receive`. The string ends at the first NUL of the array. -/
def receive (len₀ : Int) (s : Source) : Str × Source :=
  let (buff, s) := receiveInto len₀ s
  (cstr (buff.load 0 buffSize), s)

/-- Consecutive calls of `receive`, one for each value that `len` happens to have. -/
def receives : List Int → Source → List Str × Source
  | [], s => ([], s)
  | len₀ :: more, s =>
    let (msg, s) := receive len₀ s
    let (msgs, s) := receives more s
    (msg :: msgs, s)

/-- The bytes of a payload on the wire. -/
def frame (payload : Str) : Str := intBytes payload.length ++ payload

/-! ## What one call reads -/

/-- The length that `receive` reads: a stream that ends early leaves the other bytes as they were. -/
def header (len₀ : Int) (incoming : Str) : Int :=
  bytesInt (incoming.take 4 ++ (intBytes len₀).drop (incoming.take 4).length)

/-- The bytes behind the length that the peeks of `readLine` can show. -/
def shown (len₀ : Int) (incoming : Str) : Str :=
  (incoming.drop 4).take (header len₀ incoming).toNat

theorem header_frame (len₀ : Int) {n : Int} (low : -2 ^ 31 ≤ n) (high : n < 2 ^ 31) (rest : Str) :
    header len₀ (intBytes n ++ rest) = n := by
  have htake : (intBytes n ++ rest).take 4 = intBytes n := List.take_left' (length_intBytes n)
  unfold header
  rw [htake, List.drop_eq_nil_of_le (by rw [length_intBytes, length_intBytes]), List.append_nil,
    bytesInt_intBytes, int32_eq low high]

/-- `receive` passes `len + 1`, and `readLine` takes one off again. -/
theorem header_wrap (len₀ : Int) (incoming : Str) :
    int32 (int32 (header len₀ incoming + 1) - 1) = header len₀ incoming := by
  unfold header bytesInt
  exact int32_add_sub _

/-- The bytes of `len` after the `readn`. -/
theorem load_header (len₀ : Int) {data : Str} (hdata : data.length ≤ 4) :
    ((Buffer.ofBytes (intBytes len₀)).store 0 data).load 0 4 =
      data ++ (intBytes len₀).drop data.length := by
  have hlen : (data ++ (intBytes len₀).drop data.length).length = 4 := by
    rw [List.length_append, List.length_drop, length_intBytes]
    omega
  rw [← hlen]
  apply Buffer.load_eq
  intro i hi
  rw [hlen] at hi
  rw [Nat.zero_add]
  by_cases hnew : i < data.length
  · rw [List.getElem_append_left hnew, ← Buffer.store_cells hnew, Nat.zero_add]
  · have hlast : i < (intBytes len₀).length := by
      rw [length_intBytes]
      exact hi
    rw [List.getElem_append_right (by omega), List.getElem_drop, Buffer.store_cells_ge (by omega),
      Buffer.ofBytes_cells hlast]
    congr 1
    omega

/-- `receive` reads the length, and then a line of at most that length. -/
theorem receiveInto_line (len₀ : Int) {s : Source} (hs : Healthy s.calls) :
    ∃ calls, calls <:+ s.calls ∧ receiveInto len₀ s =
      (readLineFrom (int32 (header len₀ s.incoming + 1)) (header len₀ s.incoming) 0 0
        (Buffer.ofBytes []) ⟨s.incoming.drop 4, calls⟩).2 := by
  obtain ⟨calls, hcalls, hlen⟩ := readFully_eq (4 + 1) 4 4 0 (Buffer.ofBytes (intBytes len₀)) hs
  have hfour : (4 : Int).toNat = 4 := rfl
  have hheader : bytesInt (((Buffer.ofBytes (intBytes len₀)).store 0 (s.incoming.take 4)).load 0 4) =
      header len₀ s.incoming :=
    congrArg bytesInt (load_header len₀ (List.length_take_le 4 _))
  refine ⟨calls, hcalls, ?_⟩
  unfold receiveInto readn readLine
  rw [hlen]
  dsimp only
  rw [hfour, hheader, header_wrap]

/-- **One call of `receive`**: what it leaves of the stream and in the array. -/
theorem receiveInto_eq (len₀ : Int) {s : Source} (hs : Healthy s.calls) :
    ∃ buff calls, calls <:+ s.calls ∧
      receiveInto len₀ s = (buff, ⟨(s.incoming.drop 4).drop
        (lineLength (header len₀ s.incoming).toNat (s.incoming.drop 4)), calls⟩) ∧
      LineRead (shown len₀ s.incoming)
        (lineLength (header len₀ s.incoming).toNat (s.incoming.drop 4)) 0 (Buffer.ofBytes []) buff := by
  obtain ⟨calls, hcalls, hreceive⟩ := receiveInto_line len₀ hs
  obtain ⟨ret, buff, calls', hcalls', hline, hread⟩ :=
    readLineFrom_eq (int32 (header len₀ s.incoming + 1)) (header len₀ s.incoming) 0 0
      (Buffer.ofBytes []) (s := ⟨s.incoming.drop 4, calls⟩) (hs.suffix hcalls)
  exact ⟨buff, calls', hcalls'.trans hcalls, by rw [hreceive, hline], hread⟩

/-- What `receive` leaves of the stream. -/
theorem receive_incoming (len₀ : Int) {s : Source} (hs : Healthy s.calls) :
    (receive len₀ s).2.incoming = (s.incoming.drop 4).drop
      (lineLength (header len₀ s.incoming).toNat (s.incoming.drop 4)) := by
  obtain ⟨buff, calls, -, hreceive, -⟩ := receiveInto_eq len₀ hs
  unfold receive
  rw [hreceive]

/-! ## The frame -/

theorem drop_header (n : Int) (rest : Str) : (intBytes n ++ rest).drop 4 = rest :=
  List.drop_left' (length_intBytes n)

/-- Of a frame, `receive` takes the length and one line. -/
theorem receive_frame (len₀ : Int) {n : Nat} (hn : n < 2 ^ 31) (rest : Str) {calls : List Outcome}
    (hcalls : Healthy calls) :
    (receive len₀ ⟨intBytes n ++ rest, calls⟩).2.incoming = rest.drop (lineLength n rest) := by
  rw [receive_incoming len₀ hcalls]
  dsimp only
  rw [header_frame len₀ (by omega) (by omega), drop_header, Int.toNat_natCast]

/-- **Frame synchronisation.** Of a stream that starts with a length and at least that many bytes,
`receive` takes the length and those bytes exactly when none of them but the last is a newline,
however the kernel cuts the stream. -/
theorem receive_takes_frame_iff (len₀ : Int) {n : Nat} (hn : n < buffSize) {rest : Str}
    (hrest : n ≤ rest.length) {calls : List Outcome} (hcalls : Healthy calls) :
    (receive len₀ ⟨intBytes n ++ rest, calls⟩).2.incoming = (intBytes n ++ rest).drop (4 + n) ↔
      newline ∉ rest.take (n - 1) := by
  have hlen : (rest.take n).length = n := by rw [List.length_take]; omega
  have hiff := lineLength_eq_iff rest n
  rw [hlen, List.take_take, Nat.min_eq_left (Nat.sub_le n 1)] at hiff
  rw [receive_frame len₀ (hn.trans (by decide)) rest hcalls, ← hiff, ← List.drop_drop, drop_header]
  constructor
  · intro hdrop
    have hlength := congrArg List.length hdrop
    have hle := lineLength_le n rest
    rw [List.length_drop, List.length_drop] at hlength
    omega
  · intro hline
    rw [hline]

/-- A payload with a newline in front: the second byte stays in the stream. -/
theorem not_takes_frame_newline :
    (receive 0 ⟨intBytes 2 ++ [newline, 123], []⟩).2.incoming ≠
      (intBytes 2 ++ [newline, 123]).drop (4 + 2) := by
  have hcalls : Healthy [] := by decide
  have hframe := receive_frame 0 (n := 2) (by decide) [newline, 123] hcalls
  intro h
  exact absurd (hframe.symm.trans h) (by decide)

theorem receive_takes_frame_iff_two :
    (2 < buffSize ∧ 2 ≤ [123, newline].length ∧ Healthy [.upTo 1, .interrupted, .upTo 0]) ∧
      ((receive 0 ⟨intBytes 2 ++ [123, newline], [.upTo 1, .interrupted, .upTo 0]⟩).2.incoming =
          (intBytes 2 ++ [123, newline]).drop (4 + 2) ↔
        newline ∉ [123, newline].take (2 - 1)) :=
  ⟨⟨by decide, by decide, by decide⟩,
    receive_takes_frame_iff 0 (n := 2) (by decide) (by decide) (by decide)⟩

/-- A payload of clean bytes is received as it is. -/
theorem receive_payload (len₀ : Int) {payload : Str} (hlen : payload.length < buffSize)
    (hline : newline ∉ payload) (hnul : 0 ∉ payload) (rest : Str) {calls : List Outcome}
    (hcalls : Healthy calls) :
    ∃ calls', calls' <:+ calls ∧
      receive len₀ ⟨frame payload ++ rest, calls⟩ = (payload, ⟨rest, calls'⟩) := by
  obtain ⟨buff, calls', hsuffix, hreceive, hread⟩ := receiveInto_eq len₀ hcalls
    (s := ⟨frame payload ++ rest, calls⟩)
  have hincoming : frame payload ++ rest = intBytes payload.length ++ (payload ++ rest) :=
    List.append_assoc _ _ _
  have hshort : payload.length < 2 ^ 31 := hlen.trans (by decide)
  have hheader : header len₀ (frame payload ++ rest) = payload.length := by
    rw [hincoming]
    exact header_frame len₀ (by omega) (by omega) _
  have hdrop : (frame payload ++ rest).drop 4 = payload ++ rest := by
    rw [hincoming, drop_header]
  have htake : (payload ++ rest).take payload.length = payload := List.take_left' rfl
  have hall : lineLength payload.length (payload ++ rest) = payload.length := by
    have hiff := lineLength_eq_iff (payload ++ rest) payload.length
    rw [htake] at hiff
    exact hiff.mpr fun h => hline (List.mem_of_mem_take h)
  have hshown : shown len₀ (frame payload ++ rest) = payload := by
    unfold shown
    rw [hheader, hdrop, Int.toNat_natCast, htake]
  dsimp only at hreceive hread
  rw [hheader, hdrop, Int.toNat_natCast, hall] at hreceive hread
  rw [hshown] at hread
  refine ⟨calls', hsuffix, ?_⟩
  unfold receive
  rw [hreceive]
  dsimp only
  have hcells : buff.load 0 payload.length = payload :=
    Buffer.load_eq fun i hi => hread.line i hi hi
  have hends := hread.ends
  rw [Nat.zero_add] at hends
  rw [Buffer.cstr_load hlen hcells hends hnul, List.drop_left' rfl]

/-- Consecutive calls receive consecutive payloads. -/
theorem receives_payloads {payloads : List Str} {lens : List Int}
    (hlens : lens.length = payloads.length)
    (hclean : ∀ p ∈ payloads, p.length < buffSize ∧ newline ∉ p ∧ 0 ∉ p) (rest : Str)
    {calls : List Outcome} (hcalls : Healthy calls) :
    ∃ calls', receives lens ⟨payloads.flatMap frame ++ rest, calls⟩ = (payloads, ⟨rest, calls'⟩) := by
  induction payloads generalizing lens calls with
  | nil =>
    obtain rfl := List.length_eq_zero_iff.mp hlens
    exact ⟨calls, rfl⟩
  | cons p payloads ih =>
    cases lens with
    | nil => cases hlens
    | cons len₀ lens =>
      obtain ⟨hlen, hline, hnul⟩ := hclean p List.mem_cons_self
      obtain ⟨calls₁, hsuffix, hreceive⟩ := receive_payload len₀ hlen hline hnul
        (payloads.flatMap frame ++ rest) hcalls
      obtain ⟨calls', hrest⟩ := ih (Nat.succ.inj hlens)
        (fun q hq => hclean q (List.mem_cons_of_mem _ hq)) (hcalls.suffix hsuffix)
      refine ⟨calls', ?_⟩
      rw [List.flatMap_cons, List.append_assoc]
      simp only [receives, hreceive, hrest]

/-! ## Sending -/

/-- **However the writes are cut, `send` sends the frame.** -/
theorem send_frame {msg : Str} (hmsg : msg.length < 2 ^ 31) {s : Sink} (hs : Healthy s.calls) :
    (send msg s).sent = s.sent ++ frame msg ∧ (send msg s).calls <:+ s.calls := by
  have hlen : int32 msg.length = msg.length := int32_eq (by omega) (by omega)
  obtain ⟨ret, s₁, hheader, hsent₁, hcalls₁⟩ := writeFully_eq (4 + 1) 4 4 (intBytes msg.length) hs
  obtain ⟨ret', s₂, hpayload, hsent₂, hcalls₂⟩ :=
    writeFully_eq (msg.length + 1) msg.length msg.length msg (hs.suffix hcalls₁)
  have hsend : send msg s = s₂ := by
    unfold send writen
    rw [hlen]
    dsimp only
    rw [hheader]
    dsimp only
    rw [hpayload]
  have hfour : (intBytes msg.length).take (4 : Int).toNat = intBytes msg.length := rfl
  rw [hsend]
  refine ⟨?_, hcalls₂.trans hcalls₁⟩
  rw [hsent₂, hsent₁, hfour, Int.toNat_natCast, List.take_length, List.append_assoc]
  rfl

/-- The replies sent one after the other. -/
def sends (msgs : List Str) (s : Sink) : Sink := msgs.foldl (fun s msg => send msg s) s

theorem sends_frames {msgs : List Str} (hmsgs : ∀ msg ∈ msgs, msg.length < 2 ^ 31) {s : Sink}
    (hs : Healthy s.calls) : (sends msgs s).sent = s.sent ++ msgs.flatMap frame := by
  induction msgs generalizing s with
  | nil => exact (List.append_nil _).symm
  | cons msg msgs ih =>
    obtain ⟨hsent, hcalls⟩ := send_frame (hmsgs msg List.mem_cons_self) hs
    have hrest := ih (fun m hm => hmsgs m (List.mem_cons_of_mem _ hm)) (hs.suffix hcalls)
    rw [List.flatMap_cons, ← List.append_assoc, ← hsent]
    exact hrest

/-! ## The array -/

/-- Every index written is one of the array. -/
def InBounds (buff : Buffer) : Prop := ∀ i, i ∈ buff.written → i < buffSize

/-- The bytes that can be shown and the NUL behind the line fit into the array. -/
def Fits (len₀ : Int) (incoming : Str) : Prop :=
  (shown len₀ incoming).length < buffSize ∨
    (shown len₀ incoming).length = buffSize ∧
      newline ∈ (shown len₀ incoming).take (buffSize - 1)

/-- The line and the NUL fit when what can be shown does. -/
theorem inBounds_of_fits {len₀ : Int} {s : Source} (hs : Healthy s.calls)
    (hfits : Fits len₀ s.incoming) : InBounds (receiveInto len₀ s).1 := by
  obtain ⟨buff, calls, -, hreceive, hread⟩ := receiveInto_eq len₀ hs
  rw [hreceive]
  intro i hi
  have hle : lineLength _ (s.incoming.drop 4) ≤ (shown len₀ s.incoming).length :=
    lineLength_le (header len₀ s.incoming).toNat (s.incoming.drop 4)
  have hiff : lineLength _ (s.incoming.drop 4) = (shown len₀ s.incoming).length ↔ _ :=
    lineLength_eq_iff (s.incoming.drop 4) (header len₀ s.incoming).toNat
  have hreach := (hread.within i hi).resolve_left List.not_mem_nil
  rcases hfits with hshort | ⟨hfull, hline⟩
  · omega
  · -- the newline comes before the last byte, so the NUL does not come behind it
    have hne : ¬ lineLength _ (s.incoming.drop 4) = (shown len₀ s.incoming).length := fun h =>
      hiff.mp h (hfull ▸ hline)
    omega

/-- When every call transfers all it can, what can be shown and the NUL are written. -/
theorem receiveInto_written (len₀ : Int) (incoming : Str) :
    (∀ i, i < (shown len₀ incoming).length →
        i ∈ (receiveInto len₀ ⟨incoming, []⟩).1.written) ∧
      lineLength (header len₀ incoming).toNat (incoming.drop 4) ∈
        (receiveInto len₀ ⟨incoming, []⟩).1.written := by
  have hs : Healthy (Source.mk incoming []).calls := fun c hc => absurd hc List.not_mem_nil
  constructor
  · intro i hi
    obtain ⟨calls, hcalls, hreceive⟩ := receiveInto_line len₀ hs
    obtain rfl := List.suffix_nil.mp hcalls
    have hmem := readLineFrom_shown (int32 (header len₀ incoming + 1)) (header len₀ incoming) 0 0
      (Buffer.ofBytes []) (incoming.drop 4) i hi
    rw [Nat.zero_add] at hmem
    rw [hreceive]
    exact hmem
  · obtain ⟨buff, calls, -, hreceive, hread⟩ := receiveInto_eq len₀ hs
    have hnul := hread.nul
    rw [Nat.zero_add] at hnul
    rw [hreceive]
    exact hnul

/-- **Buffer bound.** Whatever a peer sends, `receive` writes only into its array, however the kernel
cuts the stream, exactly when what it can be shown fits. -/
theorem inBounds_iff (len₀ : Int) (incoming : Str) :
    (∀ calls, Healthy calls → InBounds (receiveInto len₀ ⟨incoming, calls⟩).1) ↔
      Fits len₀ incoming := by
  constructor
  · intro hall
    have hbounds := hall [] fun c hc => absurd hc List.not_mem_nil
    obtain ⟨hshown, hnul⟩ := receiveInto_written len₀ incoming
    have hend := hbounds _ hnul
    by_cases hshort : (shown len₀ incoming).length < buffSize
    · exact .inl hshort
    · have hfull : (shown len₀ incoming).length = buffSize := by
        by_contra hne
        exact absurd (hbounds buffSize (hshown buffSize (by omega))) (Nat.lt_irrefl _)
      refine .inr ⟨hfull, ?_⟩
      by_contra hline
      have hline' : lineLength _ (incoming.drop 4) = (shown len₀ incoming).length :=
        (lineLength_eq_iff (incoming.drop 4) (header len₀ incoming).toNat).mpr (by
          rw [← shown, hfull]; exact hline)
      omega
  · intro hfits calls hcalls
    exact inBounds_of_fits hcalls hfits

/-- A length of 65534 and as many bytes: the NUL goes behind the array. -/
theorem not_inBounds_long :
    ¬ InBounds (receiveInto 0 ⟨intBytes 65534 ++ List.replicate 65534 97, []⟩).1 := by
  intro hbounds
  have hnul := (receiveInto_written 0 (intBytes 65534 ++ List.replicate 65534 97)).2
  have hheader := header_frame 0 (n := 65534) (by decide) (by decide) (List.replicate 65534 97)
  have hall : lineLength 65534 (List.replicate 65534 97) = 65534 := by
    have hiff := lineLength_eq_iff (List.replicate 65534 97) 65534
    rw [List.take_replicate, Nat.min_self, List.length_replicate] at hiff
    refine hiff.mpr fun h => ?_
    have hch := List.eq_of_mem_replicate (List.mem_of_mem_take h)
    exact absurd hch (by decide)
  rw [hheader, drop_header] at hnul
  have h65534 : (65534 : Int).toNat = 65534 := rfl
  rw [h65534, hall] at hnul
  exact absurd (hbounds _ hnul) (Nat.lt_irrefl _)

end LightSearch
