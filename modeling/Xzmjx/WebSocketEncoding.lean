import Xzmjx.WebSocketRoundTrip

/-!
# The frames of a server against RFC 6455

A server frame has one encoding: the length in the shortest of its three forms, and no
mask. `WSSendMessage` goes over to the longest form at `0xff` instead of `0x10000`, and
takes a write that returns zero for a failure, so an empty payload closes the stream. The
sizes are converted to `int`, which a payload of `2 ^ 31` bytes does not survive either.
-/
namespace Xzmjx.WebSocketModel
open ByteOrder StreamModel FallibleCalls

/-- The reference encoding of an unmasked frame. -/
def referenceFrame (fin : Bool) (opcode : ℕ) (payload : Bytes) : Bytes :=
  let size := payload.length
  let length :=
    if size < 126 then [UInt8.ofNat size]
    else if size < 65536 then 126 :: store .big 2 size
    else 127 :: store .big 8 size
  UInt8.ofNat (128 * fin.toNat + opcode) :: (length ++ payload)

/-- `WSSendMessage` succeeds, leaves the stream open and emits the reference encoding. -/
def Conforms (native : Endian) (s : Stream) (fin : Bool) (opcode : ℕ) (payload : Bytes)
    (randValue : UInt32) : Prop :=
  ∃ rt s', wsSendMessage native s ⟨opcode, payload⟩ false fin randValue = .ok (rt, s') ∧ 0 < rt ∧
    s'.connected = true ∧ s'.sent = s.sent ++ referenceFrame fin opcode payload

/-! ### A socket that accepts every write whole -/

theorem toInt_le (n : ℕ) : toInt n ≤ n := by
  have := Int.bmod_eq_emod (n : ℤ) (2 ^ 32)
  unfold toInt
  omega

theorem writeFixedSize_accepting {s : Stream} (hc : s.connected = true) (hacc : s.accepts = [])
    (buf : Bytes) :
    s.writeFixedSize buf buf.length = .ok (toInt buf.length,
      { s with sent := s.sent ++ if 0 < toInt buf.length then buf else [] }) := by
  by_cases hleft : 0 < toInt buf.length
  · have hle := toInt_le buf.length
    rw [Stream.writeFixedSize,
      Stream.writeFixedSizeFrom_next _ hc (by simp [hacc]) hleft (by omega)]
    simp only [hacc, List.headD_nil, List.take_length, List.tail_nil]
    rw [Stream.writeFixedSizeFrom_done _ _ (by omega), if_pos hleft]
  · rw [Stream.writeFixedSize, Stream.writeFixedSizeFrom_done _ _ (by omega), if_neg hleft]
    simp

/-- The parts before the payload go out, and the payload decides. -/
theorem writeParts_last {parts : List Bytes} {s : Stream} (payload : Bytes)
    (hc : s.connected = true) (hacc : s.accepts = [])
    (hparts : ∀ part ∈ parts, part ≠ [] ∧ part.length < 2 ^ 31) :
    writeParts (parts ++ [payload]) s = .ok (decide (0 < toInt payload.length),
      { s with sent := s.sent ++ (parts.flatten ++
          if 0 < toInt payload.length then payload else []) }) := by
  induction parts generalizing s with
  | nil =>
      rw [List.nil_append, writeParts, writeFixedSize_accepting hc hacc, ok_bind]
      by_cases hpos : 0 < toInt payload.length
      · simp [hpos, writeParts]
      · simp [hpos, pure, Except.pure]
  | cons part parts ih =>
      obtain ⟨hne, hn⟩ := hparts part List.mem_cons_self
      have hpos := List.length_pos_iff.mpr hne
      rw [List.cons_append, writeParts, Stream.writeFixedSize_whole hc hacc hne hn, ok_bind]
      dsimp only
      rw [if_neg (by omega), ih (s := { s with sent := s.sent ++ part }) hc hacc
        fun p hp => hparts p (List.mem_cons_of_mem part hp)]
      simp

/-- The head and the length of a server frame, as the parts that are written first. -/
def serverHead (fin : Bool) (opcode size : ℕ) : List Bytes :=
  if size < 126 then [[UInt8.ofNat (128 * fin.toNat + opcode), UInt8.ofNat size]]
  else if size < 0xff then
    [[UInt8.ofNat (128 * fin.toNat + opcode), 126], store .big 2 size]
  else [[UInt8.ofNat (128 * fin.toNat + opcode), 127], store .big 8 size]

theorem frameParts_server (native : Endian) {opcode : ℕ} (payload : Bytes) (fin : Bool)
    (randValue : UInt32) (hop : opcode < 16) :
    frameParts native ⟨opcode, payload⟩ false fin randValue =
      serverHead fin opcode payload.length ++ [payload] := by
  have hopcode : ((opcode : ℤ) % 16).toNat = opcode := by omega
  have hmod : opcode % 16 = opcode := Nat.mod_eq_of_lt hop
  simp only [frameParts, serverHead, WSFrameHead.toBytes, hopcode, hmod,
    store_endianCastOnLittle]
  by_cases hshort : payload.length < 126
  · have h126 : payload.length ≠ 126 := by omega
    have h127 : payload.length ≠ 127 := by omega
    have hlow : payload.length % 128 = payload.length := Nat.mod_eq_of_lt (by omega)
    simp [hshort, h126, h127, hlow, UInt8.add_comm (UInt8.ofNat opcode)]
  · by_cases hmedium : payload.length < 0xff
    · have hlow : payload.length % 65536 = payload.length := Nat.mod_eq_of_lt (by omega)
      simp [hshort, hmedium, hlow, UInt8.add_comm (UInt8.ofNat opcode)]
    · simp [hshort, hmedium, UInt8.add_comm (UInt8.ofNat opcode)]

theorem length_of_mem_serverHead {fin : Bool} {opcode size : ℕ} {part : Bytes}
    (h : part ∈ serverHead fin opcode size) : part ≠ [] ∧ part.length < 2 ^ 31 := by
  have hlen : 0 < part.length ∧ part.length ≤ 8 := by
    unfold serverHead at h
    split_ifs at h <;>
      simp only [List.mem_cons, List.not_mem_nil, or_false] at h <;>
      rcases h with rfl | rfl <;> simp
  exact ⟨List.ne_nil_of_length_pos hlen.1, by omega⟩

/-- What `WSSendMessage` of a server does on such a socket, for every payload. -/
theorem wsSendMessage_server (native : Endian) {opcode : ℕ} (payload : Bytes) (fin : Bool)
    (randValue : UInt32) {s : Stream} (hop : opcode < 16) (hc : s.connected = true)
    (hacc : s.accepts = []) :
    wsSendMessage native s ⟨opcode, payload⟩ false fin randValue =
      .ok (if 0 < toInt payload.length then
        (toInt (payload.length + 2), { s with
          sent := s.sent ++ ((serverHead fin opcode payload.length).flatten ++ payload) })
      else (-1, { s with
        sent := s.sent ++ (serverHead fin opcode payload.length).flatten
        connected := false })) := by
  rw [wsSendMessage, frameParts_server native payload fin randValue hop,
    writeParts_last payload hc hacc fun part hpart => length_of_mem_serverHead hpart, ok_bind]
  by_cases hpos : 0 < toInt payload.length
  · simp [hpos, pure, Except.pure]
  · simp [hpos, pure, Except.pure, Stream.close]

/-- The sender's form of the length is the shortest one below `0xff` and from `0x10000` on. -/
theorem serverHead_eq_reference_iff (fin : Bool) (opcode : ℕ) (payload : Bytes) :
    (serverHead fin opcode payload.length).flatten ++ payload =
        referenceFrame fin opcode payload ↔
      payload.length < 255 ∨ 65536 ≤ payload.length := by
  unfold serverHead referenceFrame
  by_cases hshort : payload.length < 126
  · simp [hshort]
    omega
  by_cases hmedium : payload.length < 0xff
  · have hlt : payload.length < 65536 := by omega
    simp [hshort, hmedium, hlt]
  by_cases hlong : payload.length < 65536
  · -- the second byte is 127 where the reference has 126
    simp [hshort, hmedium, hlong]
  · simp [hshort, hmedium, hlong]
    omega

/-- A size as an `int`, and with the head added to it, is positive. -/
theorem toInt_pos_iff (n : ℕ) :
    0 < toInt n ∧ 0 < toInt (n + 2) ↔ 0 < n % 2 ^ 32 ∧ n % 2 ^ 32 + 2 < 2 ^ 31 := by
  have hpos (m : ℕ) : 0 < toInt m ↔ 0 < m % 2 ^ 32 ∧ m % 2 ^ 32 < 2 ^ 31 := by
    unfold toInt Int.bmod
    dsimp only
    split_ifs <;> omega
  rw [hpos, hpos]
  omega

/-- When a server frame conforms. On a connected stream that accepts all bytes, for every
opcode, either fin and every payload: the frame is sent, the stream stays open and the bytes
are the reference encoding, if and only if the payload has 1 to 254 bytes, or at least 65536
and as an `int` a size to which two can still be added. -/
theorem server_frame_conforms_iff (native : Endian) (s : Stream) (hc : s.connected = true)
    (hacc : s.accepts = []) (fin : Bool) (opcode : ℕ) (hop : opcode < 16) (payload : Bytes)
    (randValue : UInt32) :
    Conforms native s fin opcode payload randValue ↔
      1 ≤ payload.length ∧ payload.length ≤ 254 ∨
      65536 ≤ payload.length ∧ 0 < payload.length % 2 ^ 32 ∧
        payload.length % 2 ^ 32 + 2 < 2 ^ 31 := by
  have hsend := wsSendMessage_server native payload fin randValue hop hc hacc
  have hform := serverHead_eq_reference_iff fin opcode payload
  have hsize := toInt_pos_iff payload.length
  have hcond : (payload.length < 255 ∨ 65536 ≤ payload.length) ∧
      (0 < payload.length % 2 ^ 32 ∧ payload.length % 2 ^ 32 + 2 < 2 ^ 31) ↔
      1 ≤ payload.length ∧ payload.length ≤ 254 ∨
      65536 ≤ payload.length ∧ 0 < payload.length % 2 ^ 32 ∧
        payload.length % 2 ^ 32 + 2 < 2 ^ 31 := by
    omega
  rw [← hcond, ← hform, ← hsize, Conforms, hsend]
  by_cases hpos : 0 < toInt payload.length
  · simp [hpos, hc, and_comm]
  · simp [hpos]

/-- Two bytes of text from a big endian machine. -/
theorem server_frame_conforms_two_bytes :
    Conforms .big { incoming := [] } true kTextFrame [0x68, 0x69] 0 ∧
      referenceFrame true kTextFrame [0x68, 0x69] = [0x81, 2, 0x68, 0x69] :=
  ⟨(server_frame_conforms_iff .big { incoming := [] } rfl rfl true kTextFrame (by decide)
    [0x68, 0x69] 0).mpr (by decide), by decide⟩

/-- An empty payload closes the stream after its head, and 255 bytes go out with a length of
eight bytes where two would do. -/
theorem server_frame_deviates :
    wsSendMessage .little { incoming := [] } ⟨kTextFrame, []⟩ false true 0 =
        .ok (-1, { incoming := [], sent := [0x81, 0], connected := false }) ∧
      ¬Conforms .little { incoming := [] } true kTextFrame [] 0 ∧
      wsSendMessage .little { incoming := [] } ⟨kBinFrame, List.replicate 255 7⟩ false true 0 =
        .ok (257, {
          incoming := []
          sent := [0x82, 127, 0, 0, 0, 0, 0, 0, 0, 255] ++ List.replicate 255 7 }) ∧
      ¬Conforms .little { incoming := [] } true kBinFrame (List.replicate 255 7) 0 := by
  have hempty := wsSendMessage_server .little [] true 0 (s := { incoming := [] })
    (show kTextFrame < 16 by decide) rfl rfl
  have hlong := wsSendMessage_server .little (List.replicate 255 7) true 0
    (s := { incoming := [] }) (show kBinFrame < 16 by decide) rfl rfl
  have hhead : (serverHead true kBinFrame 255).flatten =
      [0x82, 127, 0, 0, 0, 0, 0, 0, 0, 255] := by decide
  rw [List.length_replicate, if_pos (by decide), hhead, show toInt (255 + 2) = 257 by decide,
    List.nil_append] at hlong
  refine ⟨hempty, ?_, hlong, ?_⟩
  · rintro ⟨rt, s', hsend, hrt, -⟩
    cases hempty.symm.trans hsend
    exact absurd hrt (by decide)
  · rintro ⟨rt, s', hsend, -, -, hsent⟩
    obtain ⟨-, rfl⟩ := Prod.mk.inj (Except.ok.inj (hlong.symm.trans hsend))
    have hform := (serverHead_eq_reference_iff true kBinFrame (List.replicate 255 7)).mp (by
      rw [List.length_replicate, hhead]
      exact hsent)
    rw [List.length_replicate] at hform
    omega

end Xzmjx.WebSocketModel
