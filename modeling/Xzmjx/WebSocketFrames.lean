import Xzmjx.WebSocketSafety

/-!
# Frames that have arrived whole

What the receiver makes of a data frame when every read delivers all it asks for:
the length is decoded, the payload unmasked and appended, and the stream left
right behind the frame.
-/
namespace Xzmjx.WebSocketModel
open ByteOrder StreamModel FallibleCalls BlockList

/-! ### Lengths, heads and keys -/

/-- Lengths travel with the highest byte first, whatever the machine. -/
theorem endianCastOnLittle_load (native : Endian) (bs : Bytes) :
    endianCastOnLittle native bs.length (load native bs) = load .big bs := by
  cases native with
  | little =>
      rw [endianCastOnLittle, if_pos rfl, swap, load, toLittle_ofLittle]
      rfl
  | big => rfl

theorem store_endianCastOnLittle (native : Endian) (n v : ℕ) :
    store native n (endianCastOnLittle native n v) = store .big n v := by
  cases native with
  | little => exact (store_swap n v).1
  | big => rfl

theorem bit_eq {x : ℕ} {b : Bool} (h : x = b.toNat) : decide (x = 1) = b := by
  subst h
  cases b <;> rfl

theorem ofBytes_toBytes {head : WSFrameHead} (hop : head.opcode < 16) (hlen : head.payload < 128) :
    WSFrameHead.ofBytes head.toBytes = head := by
  obtain ⟨opcode, rsv3, rsv2, rsv1, fin, payload, mask⟩ := head
  dsimp only at hop hlen
  have h3 := Bool.toNat_le rsv3
  have h2 := Bool.toNat_le rsv2
  have h1 := Bool.toNat_le rsv1
  have hf := Bool.toNat_le fin
  have hm := Bool.toNat_le mask
  simp only [WSFrameHead.toBytes, WSFrameHead.ofBytes, List.getD_cons_zero, List.getD_cons_succ,
    UInt8.toNat_ofNat', WSFrameHead.mk.injEq]
  exact ⟨by omega, bit_eq (by omega), bit_eq (by omega), bit_eq (by omega), bit_eq (by omega),
    by omega, bit_eq (by omega)⟩

/-- The length field of the head and the bytes that extend it. -/
inductive LengthCode : ℕ → Bytes → ℕ → Prop
  | short {n : ℕ} (h : n < 126) : LengthCode n [] n
  | medium {n : ℕ} (h : n < 2 ^ 16) : LengthCode 126 (store .big 2 n) n
  | long {n : ℕ} (h : n < 2 ^ 64) : LengthCode 127 (store .big 8 n) n

theorem LengthCode.lt {field n : ℕ} {ext : Bytes} (h : LengthCode field ext n) : field < 128 := by
  cases h with
  | short h => omega
  | medium h => decide
  | long h => decide

/-- A payload under a masking key. -/
def xorKey (key payload : Bytes) : Bytes := payload.mapIdx fun i b => b ^^^ key.getD (i % 4) 0

@[simp] theorem length_xorKey (key payload : Bytes) :
    (xorKey key payload).length = payload.length := by
  simp [xorKey]

/-- Masking twice with one key is the identity. -/
theorem xorKey_xorKey (key payload : Bytes) : xorKey key (xorKey key payload) = payload := by
  apply List.ext_getElem?
  intro i
  simp only [xorKey, List.getElem?_mapIdx, Option.map_map]
  cases payload[i]? with
  | none => rfl
  | some b =>
      simp only [Option.map_some, Function.comp_apply]
      rw [UInt8.xor_assoc, UInt8.xor_self, UInt8.xor_zero]

/-- The unmasking loop from index `i` on masks what follows the first `off + i` bytes. -/
theorem unmaskFrom_eq (mask held done : Bytes) {off i : ℕ} (todo : Bytes)
    (hoff : held.length = off) (hi : done.length = i) :
    unmaskFrom mask off todo.length i (held ++ done ++ todo) =
      .ok (held ++ done ++ todo.mapIdx fun j b => b ^^^ mask.getD ((i + j) % 4) 0) := by
  induction todo generalizing done i with
  | nil => simp [unmaskFrom]
  | cons b todo ih =>
      have hmod : (held ++ done ++ b :: todo).modify (off + i) (fun b => b ^^^ mask.getD (i % 4) 0)
          = held ++ (done ++ [b ^^^ mask.getD (i % 4) 0]) ++ todo := by
        have hlen : (held ++ done).length = off + i := by simp [hoff, hi]
        rw [List.modify_eq_take_drop, ← hlen, List.take_left, List.drop_left]
        simp
      rw [List.length_cons, unmaskFrom, if_pos (by simp [hoff, hi]), hmod,
        ih (done ++ [b ^^^ mask.getD (i % 4) 0]) (by simp [hi])]
      simp only [List.mapIdx_cons, List.append_assoc, List.cons_append, List.nil_append,
        Nat.add_zero, Nat.add_assoc, Nat.add_comm 1]

theorem unmask_eq (head : WSFrameHead) (mask held body : Bytes) (hn : body.length < 2 ^ 31) :
    unmask head mask held.length body.length (held ++ body) =
      .ok (held ++ if head.mask then xorKey mask body else body) := by
  unfold unmask
  rw [toInt_of_lt hn, Int.toNat_natCast]
  split_ifs
  · have h := unmaskFrom_eq mask held [] body rfl rfl
    simpa [xorKey] using h
  · rfl

/-! ### Frames on the wire -/

/-- The parts of a frame as they travel. -/
structure WireFrame where
  head : WSFrameHead
  ext : Bytes
  key : Bytes
  body : Bytes
  opcode_lt : head.opcode < 16
  coded : LengthCode head.payload ext body.length
  key_length : key.length = if head.mask then 4 else 0

namespace WireFrame

def bytes (f : WireFrame) : Bytes := f.head.toBytes ++ (f.ext ++ (f.key ++ f.body))

def payload (f : WireFrame) : Bytes := if f.head.mask then xorKey f.key f.body else f.body

@[simp] theorem length_payload (f : WireFrame) : f.payload.length = f.body.length := by
  unfold payload
  split_ifs
  · exact length_xorKey f.key f.body
  · rfl

theorem body_ne_nil {f : WireFrame} (h : f.payload ≠ []) : f.body ≠ [] := by
  rw [← List.length_pos_iff] at h ⊢
  rwa [← f.length_payload]

/-- A data frame that a receiver of this kind takes. -/
structure Acceptable (f : WireFrame) (client : Bool) : Prop where
  data : f.head.opcode = kBinFrame ∨ f.head.opcode = kTextFrame ∨ f.head.opcode = kContinue
  masked : client = true ∨ f.head.mask = true

theorem Acceptable.not_refused {f : WireFrame} {client : Bool} (h : f.Acceptable client) :
    ¬(¬client = true ∧ ¬f.head.mask = true) := by
  rcases h.masked with h | h <;> simp [h]

end WireFrame

namespace RecvState

/-- The receiver with these bytes to be read. -/
def holding (σ : RecvState) (bytes : Bytes) : RecvState :=
  { σ with stream := { σ.stream with incoming := Stream.buffered bytes } }

/-- The receiver after a frame, with `tail` still to be read. -/
def accept (σ : RecvState) (f : WireFrame) (tail : Bytes) : RecvState :=
  { opcode := if σ.opcode = 0 ∧ f.head.opcode ≠ kContinue then f.head.opcode else σ.opcode
    data := σ.data ++ f.payload
    curLen := σ.data.length + f.body.length
    stream := { σ.stream with incoming := Stream.buffered tail }
    round := σ.round + 1
    lengths := σ.lengths ++ [f.body.length] }

end RecvState

section

variable (native : Endian) {client : Bool} (stack : ℕ → UInt8) {s : Stream} {tail : Bytes}

theorem overlay_whole {mem part : Bytes} (h : mem.length = part.length) :
    overlay mem 0 part = part := by
  simp [overlay, ← h]

theorem overlay_resize (held body : Bytes) :
    overlay (resize held (held.length + body.length)) held.length body = held ++ body := by
  have htake : held.take (held.length + body.length) = held :=
    List.take_of_length_le (Nat.le_add_right _ _)
  have hdrop : (held ++ List.replicate body.length (0 : UInt8)).drop
      (held.length + body.length) = [] := List.drop_of_length_le (by simp)
  simp only [overlay, resize, htake, Nat.add_sub_cancel_left, List.take_left, hdrop,
    List.append_nil]

theorem recvExtended_whole {n v : ℕ} (hc : s.connected = true)
    (hs : s.incoming = Stream.buffered (store .big n v ++ tail)) (hpos : 0 < n) (hn : n < 2 ^ 31)
    (hv : v < 256 ^ n) :
    recvExtended native n s = .ok (some v, { s with incoming := Stream.buffered tail }) := by
  have hlen : (store .big n v).length = n := length_store _ _ _
  have hread := Stream.readFixedSize_buffered (store native n 0) 0 hc hs
    (List.ne_nil_of_length_pos (by omega)) (by omega) (by simp)
  rw [hlen, overlay_whole (by simp)] at hread
  have hcast := endianCastOnLittle_load native (store .big n v)
  rw [hlen, load_store _ hv] at hcast
  rw [recvExtended, hread, ok_bind]
  dsimp only
  rw [if_neg (by omega), hcast]
  rfl

theorem recvLength_whole {head : WSFrameHead} {ext : Bytes} {n : ℕ} (hc : s.connected = true)
    (hs : s.incoming = Stream.buffered (ext ++ tail)) (hcode : LengthCode head.payload ext n) :
    recvLength native head s = .ok (some n, { s with incoming := Stream.buffered tail }) := by
  generalize hfield : head.payload = field at hcode
  unfold recvLength
  rw [hfield]
  cases hcode with
  | short h =>
      rw [List.nil_append] at hs
      rw [if_neg (by omega), if_neg (by omega), ← hs]
      rfl
  | medium h =>
      rw [if_pos rfl]
      exact recvExtended_whole native hc hs (by decide) (by decide) h
  | long h =>
      rw [if_neg (by decide), if_pos rfl]
      exact recvExtended_whole native hc hs (by decide) (by decide) (h.trans_eq (by decide))

theorem recvMask_whole {head : WSFrameHead} {key : Bytes} (round : ℕ) (hc : s.connected = true)
    (hs : s.incoming = Stream.buffered (key ++ tail))
    (hkey : key.length = if head.mask then 4 else 0) :
    ∃ mask, recvMask stack head round s =
        .ok (some mask, { s with incoming := Stream.buffered tail }) ∧
      (head.mask = true → mask = key) := by
  unfold recvMask
  split_ifs at hkey ⊢ with hm
  · have hread := Stream.readFixedSize_buffered (indeterminate stack (6 * round + 2) 4) 0 hc hs
      (List.ne_nil_of_length_pos (by omega)) (by omega) (by simp [hkey])
    rw [hkey, overlay_whole (by simp [hkey])] at hread
    refine ⟨key, ?_, fun _ => rfl⟩
    rw [hread]
    rfl
  · rw [List.length_eq_zero_iff.mp hkey, List.nil_append] at hs
    exact ⟨_, by rw [← hs]; rfl, by simp [hm]⟩

theorem recvPayload_whole {f : WireFrame} {mask : Bytes} {σ : RecvState}
    (hc : σ.stream.connected = true) (hs : σ.stream.incoming = Stream.buffered (f.body ++ tail))
    (hmask : f.head.mask = true → mask = f.key) (hcur : σ.curLen = σ.data.length)
    (hlt : σ.data.length + f.body.length < websocketMsgMaxSize) (hbody : f.body ≠ []) :
    recvPayload f.head mask f.body.length σ =
      .ok (if f.head.fin then .returned else .again, σ.accept f tail) := by
  have hlimit : websocketMsgMaxSize < 2 ^ 31 := by decide
  have hsum : (((σ.data.length : ℤ) + f.body.length) % 2 ^ 64).toNat =
      σ.data.length + f.body.length := by omega
  have hwrap : Int.bmod ((σ.data.length : ℤ) + f.body.length) (2 ^ 32) =
      σ.data.length + f.body.length := by
    rw [← Nat.cast_add]
    exact toInt_of_lt (by omega)
  have hread := Stream.readFixedSize_buffered (resize σ.data (σ.data.length + f.body.length))
    σ.data.length hc hs hbody (by omega) (by simp)
  have hpos := List.length_pos_iff.mpr hbody
  have hplain : (if f.head.mask then xorKey mask f.body else f.body) = f.payload := by
    unfold WireFrame.payload
    split_ifs with hm
    · rw [hmask hm]
    · rfl
  rw [overlay_resize] at hread
  unfold recvPayload
  rw [hcur]
  dsimp only
  rw [hsum, Int.toNat_natCast, hread, ok_bind]
  dsimp only
  rw [if_neg (by omega), unmask_eq f.head mask σ.data f.body (by omega), hplain, hwrap]
  rfl

/-- The payload of a frame below the limit is what is read next. -/
theorem recvData_below {f : WireFrame} {σ : RecvState} (hf : f.Acceptable client)
    (hc : σ.stream.connected = true)
    (hs : σ.stream.incoming = Stream.buffered (f.ext ++ (f.key ++ (f.body ++ tail))))
    (hcur : σ.curLen = σ.data.length)
    (hlt : σ.data.length + f.body.length < websocketMsgMaxSize) :
    ∃ mask, (f.head.mask = true → mask = f.key) ∧
      recvData native client stack f.head σ = recvPayload f.head mask f.body.length
        (σ.holding (f.body ++ tail)) := by
  have hlimit : websocketMsgMaxSize < 2 ^ 31 := by decide
  have hlength := recvLength_whole native hc hs f.coded
  obtain ⟨mask, hread, hmask⟩ := recvMask_whole stack
    (s := { σ.stream with incoming := Stream.buffered (f.key ++ (f.body ++ tail)) })
    σ.round hc rfl f.key_length
  refine ⟨mask, hmask, ?_⟩
  unfold recvData
  rw [if_neg hf.not_refused, hlength, ok_bind]
  dsimp only
  rw [if_neg (by rw [hcur]; omega), hread, ok_bind]
  rfl

/-- A frame that would reach the limit is not read. -/
theorem recvData_above {f : WireFrame} {σ : RecvState} (hf : f.Acceptable client)
    (hc : σ.stream.connected = true)
    (hs : σ.stream.incoming = Stream.buffered (f.ext ++ (f.key ++ (f.body ++ tail))))
    (hcur : σ.curLen = σ.data.length) (hsmall : σ.data.length < websocketMsgMaxSize)
    (hlong : f.body.length < 2 ^ 63)
    (hle : websocketMsgMaxSize ≤ σ.data.length + f.body.length) :
    ∃ σ', recvData native client stack f.head σ = .ok (.broke, σ') := by
  have hlimit : websocketMsgMaxSize < 2 ^ 31 := by decide
  have hlength := recvLength_whole native hc hs f.coded
  unfold recvData
  rw [if_neg hf.not_refused, hlength, ok_bind]
  dsimp only
  rw [if_pos (by rw [hcur]; omega)]
  exact ⟨_, rfl⟩

/-! ### One frame -/

theorem recvFrame_head {head : WSFrameHead} {σ : RecvState} (hop : head.opcode < 16)
    (hlen : head.payload < 128) (hc : σ.stream.connected = true)
    (hs : σ.stream.incoming = Stream.buffered (head.toBytes ++ tail)) :
    recvFrame native client stack σ =
      recvBody native client stack head (σ.holding tail) := by
  have htwo : head.toBytes.length = 2 := rfl
  have hread := Stream.readFixedSize_buffered (indeterminate stack (6 * σ.round) 2) 0 hc hs
    (List.ne_nil_of_length_pos (by omega)) (by omega) (by simp [htwo])
  rw [htwo, overlay_whole (by simp [htwo])] at hread
  rw [recvFrame, hread, ok_bind]
  dsimp only
  rw [if_neg (by decide), ofBytes_toBytes hop hlen]
  rfl

theorem recvBody_data {f : WireFrame} {σ : RecvState} (hf : f.Acceptable client) :
    recvBody native client stack f.head σ = recvData native client stack f.head σ := by
  have hping : f.head.opcode ≠ kPing := by
    rcases hf.data with h | h | h <;> rw [h] <;> decide
  have hpong : f.head.opcode ≠ kPong := by
    rcases hf.data with h | h | h <;> rw [h] <;> decide
  rw [recvBody, if_neg hping, if_neg hpong, if_pos hf.data]

section

variable {f : WireFrame} {σ : RecvState} (hf : f.Acceptable client)
  (hc : σ.stream.connected = true) (hs : σ.stream.incoming = Stream.buffered (f.bytes ++ tail))
  (hcur : σ.curLen = σ.data.length)

include hf hc hs hcur

/-- A frame below the limit is appended. -/
theorem recvFrame_accepts (hlt : σ.data.length + f.body.length < websocketMsgMaxSize)
    (hbody : f.body ≠ []) :
    recvFrame native client stack σ =
      .ok (if f.head.fin then .returned else .again, σ.accept f tail) := by
  simp only [WireFrame.bytes, List.append_assoc] at hs
  obtain ⟨mask, hmask, hdata⟩ := recvData_below native stack
    (σ := σ.holding (f.ext ++ (f.key ++ (f.body ++ tail)))) hf hc rfl hcur hlt
  rw [recvFrame_head native stack f.opcode_lt f.coded.lt hc hs, recvBody_data native stack hf,
    hdata]
  exact recvPayload_whole (σ := σ.holding (f.body ++ tail)) hc rfl hmask hcur hlt hbody

/-- A frame without a payload, or one that would reach the limit, ends the loop. -/
theorem recvFrame_refuses (hsmall : σ.data.length < websocketMsgMaxSize)
    (hlong : f.body.length < 2 ^ 63)
    (h : f.body = [] ∨ websocketMsgMaxSize ≤ σ.data.length + f.body.length) :
    ∃ σ', recvFrame native client stack σ = .ok (.broke, σ') := by
  simp only [WireFrame.bytes, List.append_assoc] at hs
  rw [recvFrame_head native stack f.opcode_lt f.coded.lt hc hs, recvBody_data native stack hf]
  rcases h with hbody | hle
  · obtain ⟨mask, hmask, hdata⟩ := recvData_below native stack
      (σ := σ.holding (f.ext ++ (f.key ++ (f.body ++ tail)))) hf hc rfl hcur
      (by rw [hbody]; exact hsmall)
    rw [hdata, hbody, recvPayload]
    dsimp only
    rw [Stream.readFixedSize, Stream.readFixedSizeFrom_done _ _ _ (by decide), ok_bind]
    dsimp only
    rw [if_pos (by decide)]
    exact ⟨_, rfl⟩
  · exact recvData_above native stack hf hc rfl hcur hsmall hlong hle

end

/-! ### A message in fragments -/

/-- The opcode of a message is the first one that is not a continuation. -/
def pickOpcode (opcode : ℕ) (f : WireFrame) : ℕ :=
  if opcode = 0 ∧ f.head.opcode ≠ kContinue then f.head.opcode else opcode

theorem dataOpcode_lt {opcode : ℕ}
    (h : opcode = kBinFrame ∨ opcode = kTextFrame ∨ opcode = kContinue) : opcode < 16 := by
  rcases h with rfl | rfl | rfl <;> decide

/-- Frames that are one message for the receiver: only the last is final. -/
structure Carries (client : Bool) (fs : List WireFrame) (last : WireFrame) (opcode : ℕ)
    (data : Bytes) : Prop where
  frames : ∀ f ∈ fs, f.Acceptable client ∧ f.head.fin = false ∧ f.body ≠ []
  final : last.Acceptable client ∧ last.head.fin = true ∧ last.body ≠ []
  data : fs.flatMap WireFrame.payload ++ last.payload = data
  opcode : ∀ c, pickOpcode (fs.foldl pickOpcode c) last = if c = 0 then opcode else c

theorem pickOpcode_eq {f : WireFrame} (c : ℕ) :
    pickOpcode c f = if c = 0 then f.head.opcode else c := by
  by_cases hc : c = 0
  · by_cases hop : f.head.opcode = 0 <;> simp [pickOpcode, kContinue, hc, hop]
  · simp [pickOpcode, hc]

theorem Carries.single {f : WireFrame} (hf : f.Acceptable client) (hfin : f.head.fin = true)
    (hbody : f.body ≠ []) : Carries client [] f f.head.opcode f.payload :=
  ⟨by simp, ⟨hf, hfin, hbody⟩, by simp, pickOpcode_eq⟩

theorem Carries.cons {f last : WireFrame} {fs : List WireFrame} {data : Bytes}
    (h : Carries client fs last kContinue data) (hf : f.Acceptable client)
    (hfin : f.head.fin = false) (hbody : f.body ≠ []) :
    Carries client (f :: fs) last f.head.opcode (f.payload ++ data) := by
  refine ⟨?_, h.final, by simp [h.data], fun c => ?_⟩
  · simpa using ⟨⟨hf, hfin, hbody⟩, h.frames⟩
  · rw [List.foldl_cons, h.opcode, pickOpcode_eq, kContinue]
    split_ifs <;> omega

/-- The loop over the frames of a message. -/
theorem wsRecvLoop_carries {fs : List WireFrame} {last : WireFrame} {σ : RecvState}
    (hc : σ.stream.connected = true)
    (hs : σ.stream.incoming = Stream.buffered (fs.flatMap WireFrame.bytes ++ (last.bytes ++ tail)))
    (hfs : ∀ f ∈ fs, f.Acceptable client ∧ f.head.fin = false ∧ f.body ≠ [])
    (hlast : last.Acceptable client ∧ last.head.fin = true ∧ last.body ≠ [])
    (hcur : σ.curLen = σ.data.length)
    (hlt : σ.data.length + (fs.flatMap WireFrame.payload ++ last.payload).length <
      websocketMsgMaxSize) :
    ∃ σ', wsRecvLoop native client stack σ = .ok (true, σ') ∧
      σ'.opcode = pickOpcode (fs.foldl pickOpcode σ.opcode) last ∧
      σ'.data = σ.data ++ (fs.flatMap WireFrame.payload ++ last.payload) ∧
      σ'.stream = { σ.stream with incoming := Stream.buffered tail } := by
  induction fs generalizing σ with
  | nil =>
      obtain ⟨hacc, hfin, hbody⟩ := hlast
      have hframe := recvFrame_accepts native stack hacc hc hs hcur (by simpa using hlt) hbody
      rw [hfin] at hframe
      exact ⟨_, wsRecvLoop_of_frame hframe, rfl, rfl, rfl⟩
  | cons f fs ih =>
      obtain ⟨hacc, hfin, hbody⟩ := hfs f (List.mem_cons_self ..)
      simp only [List.flatMap_cons, List.append_assoc] at hs
      simp only [List.flatMap_cons, List.length_append, WireFrame.length_payload] at hlt
      have hframe := recvFrame_accepts native stack hacc hc hs hcur (by omega) hbody
      rw [hfin] at hframe
      have hlen : (σ.data ++ f.payload).length = σ.data.length + f.body.length := by simp
      obtain ⟨σ', hloop, hop, hdata, hrest⟩ := ih
        (σ := σ.accept f (fs.flatMap WireFrame.bytes ++ (last.bytes ++ tail))) hc rfl
        (fun g hg => hfs g (List.mem_cons_of_mem f hg))
        (by simp only [RecvState.accept, hlen, Nat.cast_add])
        (by
          simp only [RecvState.accept, hlen, List.length_append, WireFrame.length_payload]
          omega)
      refine ⟨σ', (wsRecvLoop_of_frame hframe).trans hloop, hop, ?_, hrest⟩
      rw [hdata]
      simp [RecvState.accept]

/-- The receiver returns the message and leaves what follows it unread. -/
theorem wsRecvMessage_carries {fs : List WireFrame} {last : WireFrame} {opcode : ℕ} {data : Bytes}
    (h : Carries client fs last opcode data) (hlt : data.length < websocketMsgMaxSize)
    (hc : s.connected = true)
    (hs : s.incoming = [fs.flatMap WireFrame.bytes ++ last.bytes ++ tail]) :
    ∃ s', wsRecvMessage native client stack s = .ok (some ⟨opcode, data⟩, s') ∧
      s'.incoming.flatten = tail := by
  have hne : fs.flatMap WireFrame.bytes ++ (last.bytes ++ tail) ≠ [] := by
    simp [WireFrame.bytes, WSFrameHead.toBytes]
  rw [List.append_assoc, ← Stream.buffered_of_ne_nil hne] at hs
  obtain ⟨σ, hloop, hop, hdata, hrest⟩ := wsRecvLoop_carries native stack
    (σ := { stream := s }) hc hs h.frames h.final rfl (by rw [h.data]; simpa using hlt)
  refine ⟨σ.stream, ?_, by rw [hrest, Stream.flatten_buffered]⟩
  rw [wsRecvMessage_returned hloop, hop, hdata, h.data, h.opcode]
  rfl

end

end Xzmjx.WebSocketModel
