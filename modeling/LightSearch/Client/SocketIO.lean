import LightSearch.Lib.Run
import LightSearch.Server.TcpConnection

/-!
# The client's end of a connection

The client reads the length with one `recv` that waits for all four bytes, allocates an array of that
length and one more, and fills it with `readN`. So it has no bound on the length but that of an
`int`, and a newline is a byte like the others.

The framing theorem puts the two ends together: what one sends the other receives, in order, and
nothing is left between two frames (`framing_round_trip`).
-/

set_option autoImplicit false

namespace LightSearch

open Cxx Posix

namespace Client

/-! ## The functions -/

/-- `SocketIO::readN` of the client. -/
def readN (buf : Buffer) (len : Int) (s : Source) : Int × Buffer × Source :=
  readFully (-1) len len 0 buf s

/-- `SocketIO::writeN` of the client. -/
def writeN (buf : Str) (len : Int) (s : Sink) : Int × Sink :=
  writeFully (-1) len len buf s

/-- `SocketIO::receive` of the client; `waitall` is the outcome of the `recv` with `MSG_WAITALL`,
which transfers all four bytes if any. -/
def receive (waitall : Outcome) (s : Source) : Except Fault (Str × Source) :=
  match waitall with
  | .upTo _ =>
    let cell := (Buffer.ofBytes (intBytes 0)).store 0 (s.incoming.take 4)
    let s := { s with incoming := s.incoming.drop 4 }
    let len := bytesInt (cell.load 0 4)
    if int32 (len + 1) < 0 then .error (.thrown (lit "std::bad_array_new_length"))
    else
      let (ret, buf, s) := readN (Buffer.ofBytes []) len s
      if ret = -1 then .ok ([], s) else .ok (cstr (buf.load 0 (int32 (len + 1)).toNat), s)
  | _ => .ok ([], s)

/-- Consecutive calls of `receive`, one for each outcome of the `recv`. -/
def receives : List Outcome → Source → Except Fault (List Str × Source)
  | [], s => .ok ([], s)
  | waitall :: more, s => do
    let (msg, s) ← receive waitall s
    let (msgs, s) ← receives more s
    .ok (msg :: msgs, s)

/-- `SocketIO::send` of the client. The length goes out in a single `write`, and what that returns is
not looked at. -/
def send (str : Str) (s : Sink) : Int × Sink :=
  let len := int32 str.length
  let (_, s) := s.write (intBytes len) 4
  let (ret, s) := writeN str len s
  if ret = -1 then (-1, s) else (ret, s)

/-! ## What they do on frames -/

/-- The client receives a payload as it is. -/
theorem receive_payload (k : Nat) {payload : Str} (hlen : payload.length < 2 ^ 31 - 1)
    (hnul : 0 ∉ payload) (rest : Str) {calls : List Outcome} (hcalls : Healthy calls) :
    ∃ calls', calls' <:+ calls ∧
      receive (.upTo k) ⟨frame payload ++ rest, calls⟩ = .ok (payload, ⟨rest, calls'⟩) := by
  have hincoming : frame payload ++ rest = intBytes payload.length ++ (payload ++ rest) :=
    List.append_assoc _ _ _
  have hheader : bytesInt (((Buffer.ofBytes (intBytes 0)).store 0
      ((frame payload ++ rest).take 4)).load 0 4) = payload.length := by
    rw [load_header 0 (List.length_take_le 4 _), hincoming]
    exact header_frame 0 (by omega) (by omega) _
  have hsize : int32 ((payload.length : Int) + 1) = (payload.length + 1 : Nat) :=
    int32_eq (by omega) (by omega)
  have hdrop : (frame payload ++ rest).drop 4 = payload ++ rest := by
    rw [hincoming, drop_header]
  obtain ⟨calls', hsuffix, hread⟩ := readFully_eq (-1) payload.length payload.length 0
    (Buffer.ofBytes []) (s := ⟨payload ++ rest, calls⟩) hcalls
  have htake : (payload ++ rest).take payload.length = payload := List.take_left' rfl
  have hskip : (payload ++ rest).drop payload.length = rest := List.drop_left' rfl
  simp only [Int.toNat_natCast, htake, hskip, Int.sub_self, Int.zero_add] at hread
  have hpos : ¬ ((payload.length + 1 : Nat) : Int) < 0 := by omega
  have hret : ¬ (payload.length : Int) = -1 := by omega
  -- the cell behind the payload is still the zero of the allocation
  have hends : ((Buffer.ofBytes []).store 0 payload).cells payload.length = 0 :=
    Buffer.store_cells_ge (Nat.zero_add payload.length).le
  refine ⟨calls', hsuffix, ?_⟩
  simp only [receive, hheader, hdrop, hsize, if_neg hpos, readN, hread, if_neg hret,
    Int.toNat_natCast, Buffer.cstr_load (Nat.lt_succ_self _) (Buffer.load_store _ 0 payload) hends hnul]

/-- Consecutive calls receive consecutive payloads. -/
theorem receives_payloads {payloads : List Str} {sizes : List Nat}
    (hsizes : sizes.length = payloads.length)
    (hclean : ∀ p ∈ payloads, p.length < 2 ^ 31 - 1 ∧ 0 ∉ p) (rest : Str)
    {calls : List Outcome} (hcalls : Healthy calls) :
    ∃ calls', receives (sizes.map .upTo) ⟨payloads.flatMap frame ++ rest, calls⟩ =
      .ok (payloads, ⟨rest, calls'⟩) := by
  induction payloads generalizing sizes calls with
  | nil =>
    obtain rfl := List.length_eq_zero_iff.mp hsizes
    exact ⟨calls, rfl⟩
  | cons p payloads ih =>
    cases sizes with
    | nil => cases hsizes
    | cons k sizes =>
      obtain ⟨hlen, hnul⟩ := hclean p List.mem_cons_self
      obtain ⟨calls₁, hsuffix, hreceive⟩ := receive_payload k hlen hnul
        (payloads.flatMap frame ++ rest) hcalls
      obtain ⟨calls', hrest⟩ := ih (Nat.succ.inj hsizes)
        (fun q hq => hclean q (List.mem_cons_of_mem _ hq)) (hcalls.suffix hsuffix)
      refine ⟨calls', ?_⟩
      rw [List.flatMap_cons, List.append_assoc]
      simp only [List.map_cons, receives, hreceive, hrest, Except.ok_bind]

/-- The client sends a frame when its `write` of the length transfers all four bytes. -/
theorem send_frame {str : Str} (hstr : str.length < 2 ^ 31) {s : Sink} (hs : Healthy s.calls)
    (hheader : (s.write (intBytes str.length) 4).1 = .done 4) :
    (send str s).2.sent = s.sent ++ frame str := by
  have hlen : int32 str.length = str.length := int32_eq (by omega) (by omega)
  obtain ⟨s₁, hwrite⟩ : ∃ s₁, s.write (intBytes str.length) 4 = (.done 4, s₁) := ⟨_, Prod.ext hheader rfl⟩
  obtain ⟨-, -, hsent₁⟩ := Sink.write_done (by decide) hwrite
  obtain ⟨ret, s₂, hpayload, hsent₂, -⟩ := writeFully_eq (-1) str.length str.length str
    (hs.suffix (Sink.write_calls hwrite))
  have hsend : (send str s).2 = s₂ := by
    unfold send writeN
    rw [hlen]
    dsimp only
    rw [hwrite]
    dsimp only
    rw [hpayload]
    dsimp only
    split
    · rfl
    · rfl
  have hfour : (intBytes str.length).take 4 = intBytes str.length := rfl
  rw [hsend, hsent₂, hsent₁, hfour, Int.toNat_natCast, List.take_length, List.append_assoc]
  rfl

end Client

/-- **Framing round trip.** However the kernel cuts the stream, consecutive calls of `receive` on the
server return the payloads of the frames in it, when these fit the array and have neither newline
nor NUL, and consecutive calls of `receive` on the client return the messages that the server sent,
when these have no NUL. Both leave the stream at the next frame. -/
theorem framing_round_trip :
    (∀ (payloads : List Str) (lens : List Int) (rest : Str) (calls : List Outcome),
      lens.length = payloads.length →
      (∀ p ∈ payloads, p.length < buffSize ∧ newline ∉ p ∧ 0 ∉ p) → Healthy calls →
      ∃ calls', receives lens ⟨payloads.flatMap frame ++ rest, calls⟩ =
        (payloads, ⟨rest, calls'⟩)) ∧
    (∀ (payloads : List Str) (sizes : List Nat) (rest : Str) (writes calls : List Outcome),
      sizes.length = payloads.length →
      (∀ p ∈ payloads, p.length < 2 ^ 31 - 1 ∧ 0 ∉ p) → Healthy writes → Healthy calls →
      ∃ calls', Client.receives (sizes.map .upTo)
        ⟨(sends payloads ⟨[], writes⟩).sent ++ rest, calls⟩ = .ok (payloads, ⟨rest, calls'⟩)) := by
  constructor
  · intro payloads lens rest calls hlens hclean hcalls
    exact receives_payloads hlens hclean rest hcalls
  · intro payloads sizes rest writes calls hsizes hclean hwrites hcalls
    have hsent := sends_frames (s := ⟨[], writes⟩)
      (fun p hp => (hclean p hp).1.trans (by decide)) hwrites
    rw [List.nil_append] at hsent
    rw [hsent]
    exact Client.receives_payloads hsizes hclean rest hcalls

/-- Two payloads and the first byte of a third frame, with the length of the first one cut. -/
theorem framing_round_trip_two :
    ((∀ p ∈ [lit "ab", []], p.length < buffSize ∧ newline ∉ p ∧ 0 ∉ p) ∧
      (∀ p ∈ [lit "ab", []], p.length < 2 ^ 31 - 1 ∧ 0 ∉ p) ∧
      Healthy [.upTo 1, .interrupted, .upTo 0, .upTo 9]) ∧
    (∃ calls', receives [-1, 7] ⟨[lit "ab", []].flatMap frame ++ [3],
      [.upTo 1, .interrupted, .upTo 0, .upTo 9]⟩ = ([lit "ab", []], ⟨[3], calls'⟩)) ∧
    ∃ calls', Client.receives ([0, 0].map .upTo)
      ⟨(sends [lit "ab", []] ⟨[], [.upTo 1, .interrupted, .upTo 0, .upTo 9]⟩).sent ++ [3],
        [.upTo 1, .interrupted, .upTo 0, .upTo 9]⟩ = .ok ([lit "ab", []], ⟨[3], calls'⟩) := by
  have hserver : ∀ p ∈ [lit "ab", []], p.length < buffSize ∧ newline ∉ p ∧ 0 ∉ p := by decide
  have hclient : ∀ p ∈ [lit "ab", []], p.length < 2 ^ 31 - 1 ∧ 0 ∉ p := by decide
  have hcalls : Healthy [.upTo 1, .interrupted, .upTo 0, .upTo 9] := by decide
  exact ⟨⟨hserver, hclient, hcalls⟩, framing_round_trip.1 _ _ _ _ rfl hserver hcalls,
    framing_round_trip.2 _ _ _ _ _ rfl hclient hcalls hcalls⟩

end LightSearch
