import Xzmjx.ByteOrder
import Xzmjx.FallibleCalls
import Xzmjx.StreamWrites

/-!
# WebSocket frames

`WSSendMessage` and `WSRecvMessage` over a stream. Objects on the stack that the
source leaves uninitialised hold bytes of `stack`, which is arbitrary: a read in
several parts does not overwrite them all. A `std::string` is its bytes, and a
store or an update outside of it is a fault. `native` is the byte order of the
machine.
-/
namespace Xzmjx.WebSocketModel
open ByteOrder StreamModel FallibleCalls

def kContinue : ℕ := 0
def kTextFrame : ℕ := 1
def kBinFrame : ℕ := 2
def kPing : ℕ := 0x9
def kPong : ℕ := 0xA

/-- The default of `websockt.message.max_size`. -/
def websocketMsgMaxSize : ℕ := 1024 * 1024 * 32

/-- `EndianCastOnLittle` on an integer of `n` bytes. -/
def endianCastOnLittle (native : Endian) (n value : ℕ) : ℕ :=
  if native = .little then swap n value else value

/-- An uninitialised object of `n` bytes. -/
def indeterminate (stack : ℕ → UInt8) (i n : ℕ) : Bytes := (List.range n).map fun j => stack (i + j)

structure WSFrameHead where
  opcode : ℕ
  rsv3 : Bool := false
  rsv2 : Bool := false
  rsv1 : Bool := false
  fin : Bool
  payload : ℕ
  mask : Bool
  deriving DecidableEq, Repr

namespace WSFrameHead

/-- The two bytes of the packed struct; the bit-fields fill each byte from its low end. -/
def toBytes (h : WSFrameHead) : Bytes :=
  [UInt8.ofNat (h.opcode % 16 + 16 * h.rsv3.toNat + 32 * h.rsv2.toNat + 64 * h.rsv1.toNat +
      128 * h.fin.toNat),
    UInt8.ofNat (h.payload % 128 + 128 * h.mask.toNat)]

def ofBytes (raw : Bytes) : WSFrameHead :=
  let b0 := (raw.getD 0 0).toNat
  let b1 := (raw.getD 1 0).toNat
  { opcode := b0 % 16
    rsv3 := b0 / 16 % 2 = 1
    rsv2 := b0 / 32 % 2 = 1
    rsv1 := b0 / 64 % 2 = 1
    fin := b0 / 128 = 1
    payload := b1 % 128
    mask := b1 / 128 = 1 }

end WSFrameHead

structure WSFrameMessage where
  opcode : ℤ := 0
  data : Bytes := []
  deriving DecidableEq, Repr

/-- `WSPing` and `WSPong`: a head without mask and payload. -/
def sendControl (opcode : ℕ) (s : Stream) : Except Fault (ℤ × Stream) := do
  let head : WSFrameHead := { opcode := opcode, fin := true, payload := 0, mask := false }
  let (rt, s) ← s.writeFixedSize head.toBytes 2
  pure (rt, if rt ≤ 0 then s.close else s)

def wsPong (s : Stream) : Except Fault (ℤ × Stream) := sendControl kPong s

/-! ### WSRecvMessage -/

/-- The locals of `WSRecvMessage` at the top of its loop. `round` counts the frames and
`lengths` records the payload lengths of the data frames; both are only written. -/
structure RecvState where
  opcode : ℕ := 0
  data : Bytes := []
  curLen : ℤ := 0
  stream : Stream
  round : ℕ := 0
  lengths : List ℕ := []

/-- How the body of the loop is left. -/
inductive Exit
  | again
  | broke
  | returned
  deriving DecidableEq, Repr

/-- `std::string::resize`. -/
def resize (data : Bytes) (n : ℕ) : Bytes := data.take n ++ List.replicate (n - data.length) 0

/-- The loop that unmasks `data[off + i]`, for `count` values from `i` on. -/
def unmaskFrom (mask : Bytes) (off : ℕ) : ℕ → ℕ → Bytes → Except Fault Bytes
  | 0, _, data => .ok data
  | count + 1, i, data =>
      if off + i < data.length then
        unmaskFrom mask off count (i + 1)
          (data.modify (off + i) fun b => b ^^^ mask.getD (i % 4) 0)
      else .error .outOfBounds

section Recv

variable (native : Endian) (client : Bool) (stack : ℕ → UInt8)

/-- An extended length of `n` bytes; `none` where the source breaks. -/
def recvExtended (n : ℕ) (s : Stream) : Except Fault (Option ℕ × Stream) := do
  let (rt, len, s) ← s.readFixedSize (store native n 0) 0 n
  if rt ≤ 0 then pure (none, s)
  else pure (some (endianCastOnLittle native n (load native len)), s)

def recvLength (head : WSFrameHead) (s : Stream) : Except Fault (Option ℕ × Stream) :=
  if head.payload = 126 then recvExtended native 2 s
  else if head.payload = 127 then recvExtended native 8 s
  else pure (some head.payload, s)

/-- The masking key of a frame; without a mask it stays uninitialised and unused. -/
def recvMask (head : WSFrameHead) (round : ℕ) (s : Stream) :
    Except Fault (Option Bytes × Stream) :=
  if head.mask then do
    let (rt, mask, s) ← s.readFixedSize (indeterminate stack (6 * round + 2) 4) 0 4
    if rt ≤ 0 then pure (none, s) else pure (some mask, s)
  else pure (some (indeterminate stack (6 * round + 2) 4), s)

/-- The bytes `data[off .. off + length)` are unmasked if the head says so. -/
def unmask (head : WSFrameHead) (mask : Bytes) (off length : ℕ) (data : Bytes) :
    Except Fault Bytes :=
  if head.mask then unmaskFrom mask off (toInt length).toNat 0 data else .ok data

/-- The payload of a data frame: `data` is resized to hold it, filled and unmasked. -/
def recvPayload (head : WSFrameHead) (mask : Bytes) (length : ℕ) (σ : RecvState) :
    Except Fault (Exit × RecvState) := do
  let σ := { σ with data := resize σ.data ((σ.curLen + length) % 2 ^ 64).toNat }
  let (rt, data, s) ← σ.stream.readFixedSize σ.data σ.curLen.toNat length
  let σ := { σ with data := data, stream := s }
  if rt ≤ 0 then return (.broke, σ)
  let data ← unmask head mask σ.curLen.toNat length data
  let σ := { σ with
    data := data
    curLen := Int.bmod (σ.curLen + length) (2 ^ 32)
    opcode := if σ.opcode = 0 ∧ head.opcode ≠ kContinue then head.opcode else σ.opcode
    lengths := σ.lengths ++ [length]
    round := σ.round + 1 }
  return (if head.fin then .returned else .again, σ)

/-- A data frame. The sum of the size check is taken modulo `2 ^ 64`. -/
def recvData (head : WSFrameHead) (σ : RecvState) : Except Fault (Exit × RecvState) := do
  if ¬client ∧ ¬head.mask then return (.broke, σ)
  let (length, s) ← recvLength native head σ.stream
  let σ := { σ with stream := s }
  match length with
  | none => return (.broke, σ)
  | some length =>
      if websocketMsgMaxSize ≤ ((σ.curLen + length) % 2 ^ 64).toNat then return (.broke, σ)
      let (mask, s) ← recvMask stack head σ.round σ.stream
      let σ := { σ with stream := s }
      match mask with
      | none => return (.broke, σ)
      | some mask => recvPayload head mask length σ

/-- What a frame does once its head is read. Nothing of a control frame but its head is
read, and unknown opcodes are passed over in the same way. -/
def recvBody (head : WSFrameHead) (σ : RecvState) : Except Fault (Exit × RecvState) :=
  if head.opcode = kPing then do
    let (rt, s) ← wsPong σ.stream
    return (if rt ≤ 0 then .broke else .again, { σ with stream := s, round := σ.round + 1 })
  else if head.opcode = kPong then return (.again, { σ with round := σ.round + 1 })
  else if head.opcode = kBinFrame ∨ head.opcode = kTextFrame ∨ head.opcode = kContinue then
    recvData native client stack head σ
  else return (.again, { σ with round := σ.round + 1 })

/-- The body of the loop of `WSRecvMessage`. -/
def recvFrame (σ : RecvState) : Except Fault (Exit × RecvState) := do
  let (rt, raw, s) ← σ.stream.readFixedSize (indeterminate stack (6 * σ.round) 2) 0 2
  let σ := { σ with stream := s }
  if rt ≤ 0 then return (.broke, σ)
  recvBody native client stack (WSFrameHead.ofBytes raw) σ

/-! ### What a frame takes off the stream -/

theorem readFixedSize_suffix {s s' : Stream} {mem mem' : Bytes} {off n : ℕ} {rt : ℤ}
    (h : s.readFixedSize mem off n = .ok (rt, mem', s')) :
    s'.incoming.flatten <:+ s.incoming.flatten := by
  obtain ⟨g, hg, -⟩ := (Stream.filled_of_readFixedSizeFrom h).taken
  exact ⟨g, hg.symm⟩

/-- A control frame takes nothing off the stream, and closes it only if it fails. -/
theorem sendControl_receives {opcode : ℕ} {s s' : Stream} {rt : ℤ}
    (h : sendControl opcode s = .ok (rt, s')) :
    s'.incoming = s.incoming ∧ (0 < rt → s'.connected = s.connected) := by
  obtain ⟨⟨r, t⟩, hwrite, hret⟩ := bind_eq_ok h
  have ht := Stream.writeFixedSizeFrom_receives hwrite
  simp only [pure, Except.pure, Except.ok.injEq, Prod.mk.injEq] at hret
  obtain ⟨rfl, rfl⟩ := hret
  split_ifs with hr
  · exact ⟨ht.1, fun hpos => absurd hr (by omega)⟩
  · exact ⟨ht.1, fun _ => ht.2⟩

variable {native client stack}

theorem recvExtended_suffix {n : ℕ} {s s' : Stream} {r : Option ℕ}
    (h : recvExtended native n s = .ok (r, s')) :
    s'.incoming.flatten <:+ s.incoming.flatten := by
  obtain ⟨⟨rt, len, t⟩, hread, hret⟩ := bind_eq_ok h
  have ht := readFixedSize_suffix hread
  dsimp only at hret
  split_ifs at hret <;> cases hret <;> exact ht

theorem recvLength_suffix {head : WSFrameHead} {s s' : Stream} {r : Option ℕ}
    (h : recvLength native head s = .ok (r, s')) :
    s'.incoming.flatten <:+ s.incoming.flatten := by
  unfold recvLength at h
  split_ifs at h
  · exact recvExtended_suffix h
  · exact recvExtended_suffix h
  · cases h
    exact List.suffix_rfl

theorem recvMask_suffix {head : WSFrameHead} {round : ℕ} {s s' : Stream} {r : Option Bytes}
    (h : recvMask stack head round s = .ok (r, s')) :
    s'.incoming.flatten <:+ s.incoming.flatten := by
  unfold recvMask at h
  split_ifs at h
  · obtain ⟨⟨rt, mask, t⟩, hread, hret⟩ := bind_eq_ok h
    have ht := readFixedSize_suffix hread
    dsimp only at hret
    split_ifs at hret <;> cases hret <;> exact ht
  · cases h
    exact List.suffix_rfl

theorem recvPayload_suffix {head : WSFrameHead} {mask : Bytes} {length : ℕ} {σ σ' : RecvState}
    {e : Exit} (h : recvPayload head mask length σ = .ok (e, σ')) :
    σ'.stream.incoming.flatten <:+ σ.stream.incoming.flatten := by
  obtain ⟨⟨rt, data, t⟩, hread, hret⟩ := bind_eq_ok h
  have ht := readFixedSize_suffix hread
  dsimp only at hret
  split_ifs at hret
  · cases hret
    exact ht
  all_goals
    obtain ⟨data', -, hret'⟩ := bind_eq_ok hret
    cases hret'
    exact ht

theorem recvData_suffix {head : WSFrameHead} {σ σ' : RecvState} {e : Exit}
    (h : recvData native client stack head σ = .ok (e, σ')) :
    σ'.stream.incoming.flatten <:+ σ.stream.incoming.flatten := by
  unfold recvData at h
  split_ifs at h
  · cases h
    exact List.suffix_rfl
  obtain ⟨⟨length, s⟩, hlength, h⟩ := bind_eq_ok h
  have hs := recvLength_suffix hlength
  cases length with
  | none =>
      cases h
      exact hs
  | some length =>
      dsimp only at h
      split_ifs at h
      · cases h
        exact hs
      obtain ⟨⟨mask, t⟩, hmask, h⟩ := bind_eq_ok h
      have ht := recvMask_suffix hmask
      cases mask with
      | none =>
          cases h
          exact ht.trans hs
      | some mask => exact ((recvPayload_suffix h).trans ht).trans hs

theorem recvBody_suffix {head : WSFrameHead} {σ σ' : RecvState} {e : Exit}
    (h : recvBody native client stack head σ = .ok (e, σ')) :
    σ'.stream.incoming.flatten <:+ σ.stream.incoming.flatten := by
  unfold recvBody at h
  split_ifs at h
  · obtain ⟨⟨rt, s⟩, hpong, hret⟩ := bind_eq_ok h
    cases hret
    have hin := congrArg List.flatten (sendControl_receives hpong).1
    exact hin.symm ▸ List.suffix_rfl
  · cases h
    exact List.suffix_rfl
  · exact recvData_suffix h
  · cases h
    exact List.suffix_rfl

/-- A frame after which the loop goes on has taken its head off the stream. -/
theorem recvFrame_again_lt {σ σ' : RecvState}
    (h : recvFrame native client stack σ = .ok (.again, σ')) :
    σ'.stream.incoming.flatten.length < σ.stream.incoming.flatten.length := by
  obtain ⟨⟨rt, raw, s⟩, hread, h⟩ := bind_eq_ok h
  obtain ⟨g, hg, hlen⟩ := (Stream.filled_of_readFixedSizeFrom hread).taken
  rw [toInt_of_lt (by decide)] at hlen
  dsimp only at h
  split_ifs at h with hrt
  · cases h
  · have hbody := (recvBody_suffix h).length_le
    have htwo := hlen (by omega)
    dsimp only at hbody
    rw [hg, List.length_append]
    omega

/-! ### The loop -/

variable (native client stack)

/-- The loop of `WSRecvMessage`: whether it returned a message, and its locals then. -/
def wsRecvLoop (σ : RecvState) : Except Fault (Bool × RecvState) :=
  match _h : recvFrame native client stack σ with
  | .error e => .error e
  | .ok (.again, σ') => wsRecvLoop σ'
  | .ok (.broke, σ') => .ok (false, σ')
  | .ok (.returned, σ') => .ok (true, σ')
termination_by σ.stream.incoming.flatten.length
decreasing_by exact recvFrame_again_lt ‹_›

variable {native client stack} in
theorem wsRecvLoop_of_frame {σ σ' : RecvState} {e : Exit}
    (h : recvFrame native client stack σ = .ok (e, σ')) :
    wsRecvLoop native client stack σ =
      match e with
      | .again => wsRecvLoop native client stack σ'
      | .broke => .ok (false, σ')
      | .returned => .ok (true, σ') := by
  rw [wsRecvLoop]
  split <;> rename_i hframe <;> cases hframe.symm.trans h <;> rfl

/-- `WSRecvMessage(stream, client)`. -/
def wsRecvMessage (s : Stream) : Except Fault (Option WSFrameMessage × Stream) := do
  let (got, σ) ← wsRecvLoop native client stack { stream := s }
  pure (if got then (some ⟨σ.opcode, σ.data⟩, σ.stream) else (none, σ.stream.close))

variable {native client stack}

theorem wsRecvMessage_returned {s : Stream} {σ : RecvState}
    (h : wsRecvLoop native client stack { stream := s } = .ok (true, σ)) :
    wsRecvMessage native client stack s = .ok (some ⟨σ.opcode, σ.data⟩, σ.stream) := by
  rw [wsRecvMessage, h]
  rfl

theorem wsRecvMessage_broke {s : Stream} {σ : RecvState}
    (h : wsRecvLoop native client stack { stream := s } = .ok (false, σ)) :
    wsRecvMessage native client stack s = .ok (none, σ.stream.close) := by
  rw [wsRecvMessage, h]
  rfl

end Recv

/-! ### WSSendMessage -/

/-- The parts of a frame, each written by a call of its own. With `client` set the payload is
masked in a copy, and the copy is not what is written. -/
def frameParts (native : Endian) (msg : WSFrameMessage) (client fin : Bool) (randValue : UInt32) :
    List Bytes :=
  let size := msg.data.length
  let head : WSFrameHead :=
    { opcode := (msg.opcode % 16).toNat
      fin := fin
      payload := if size < 126 then size else if size < 0xff then 126 else 127
      mask := client }
  let length :=
    if head.payload = 126 then [store native 2 (endianCastOnLittle native 2 (size % 2 ^ 16))]
    else if head.payload = 127 then [store native 8 (endianCastOnLittle native 8 size)]
    else []
  let mask := if client then [store native 4 randValue.toNat] else []
  head.toBytes :: length ++ mask ++ [msg.data]

/-- Write the parts until one fails. -/
def writeParts : List Bytes → Stream → Except Fault (Bool × Stream)
  | [], s => .ok (true, s)
  | part :: parts, s => do
      let (rt, s) ← s.writeFixedSize part part.length
      if rt ≤ 0 then pure (false, s) else writeParts parts s

/-- `WSSendMessage(stream, msg, client, fin)`. -/
def wsSendMessage (native : Endian) (s : Stream) (msg : WSFrameMessage) (client fin : Bool)
    (randValue : UInt32) : Except Fault (ℤ × Stream) := do
  let (done, s) ← writeParts (frameParts native msg client fin randValue) s
  pure (if done then (toInt (msg.data.length + 2), s) else (-1, s.close))

end Xzmjx.WebSocketModel
