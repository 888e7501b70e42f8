import Mathlib.Data.List.GetD
import Xzmjx.WebSocketFrames

/-!
# From the sender to the receiver

Frames that `WSSendMessage` writes unmasked come back as one message, in either
byte order on either side. With a mask the head announces it and the key is sent,
but the payload goes out as it is, so the receiver's unmasking alters it.
-/
namespace Xzmjx.WebSocketModel
open ByteOrder StreamModel FallibleCalls

/-! ### What the sender writes -/

/-- The frame that `WSSendMessage` writes. -/
def sentFrame (native : Endian) {opcode : ℕ} {payload : Bytes} (client fin : Bool)
    (randValue : UInt32) (hop : opcode < 16) (hlen : payload.length < 2 ^ 64) : WireFrame where
  head :=
    { opcode := opcode
      fin := fin
      payload := if payload.length < 126 then payload.length
        else if payload.length < 0xff then 126 else 127
      mask := client }
  ext :=
    if payload.length < 126 then []
    else if payload.length < 0xff then store .big 2 payload.length
    else store .big 8 payload.length
  key := if client then store native 4 randValue.toNat else []
  body := payload
  opcode_lt := hop
  coded := by
    dsimp only
    split_ifs with hshort hmedium
    · exact .short hshort
    · exact .medium (by omega)
    · exact .long hlen
  key_length := by
    dsimp only
    split_ifs
    · exact length_store _ _ _
    · rfl

section

variable (native : Endian) {opcode : ℕ} {payload : Bytes} (client fin : Bool) (randValue : UInt32)
  (hop : opcode < 16) (hlen : payload.length < 2 ^ 64)

theorem flatten_frameParts :
    (frameParts native ⟨opcode, payload⟩ client fin randValue).flatten =
      (sentFrame native client fin randValue hop hlen).bytes := by
  have hopcode : ((opcode : ℤ) % 16).toNat = opcode := by omega
  simp only [frameParts, sentFrame, WireFrame.bytes, hopcode, store_endianCastOnLittle]
  by_cases hshort : payload.length < 126
  · have h126 : payload.length ≠ 126 := by omega
    have h127 : payload.length ≠ 127 := by omega
    cases client <;> simp [hshort, h126, h127]
  · by_cases hmedium : payload.length < 0xff
    · have hmod : payload.length % 65536 = payload.length := Nat.mod_eq_of_lt (by omega)
      cases client <;> simp [hshort, hmedium, hmod]
    · cases client <;> simp [hshort, hmedium]

/-- Every part but the payload is an object of the sender. -/
theorem length_of_mem_frameParts {msg : WSFrameMessage} {part : Bytes}
    (h : part ∈ frameParts native msg client fin randValue) :
    part = msg.data ∨ 0 < part.length ∧ part.length ≤ 8 := by
  have hhead : ∀ head : WSFrameHead, head.toBytes.length = 2 := fun _ => rfl
  simp only [frameParts, List.mem_cons, List.mem_append, List.not_mem_nil, or_false] at h
  rcases h with ((rfl | hext) | hmask) | rfl
  · exact Or.inr (by simp [hhead])
  · split_ifs at hext
    all_goals
      first
      | exact Or.inr (by simp [List.mem_singleton.mp hext])
      | exact absurd hext List.not_mem_nil
  · split_ifs at hmask
    · exact Or.inr (by simp [List.mem_singleton.mp hmask])
    · exact absurd hmask List.not_mem_nil
  · exact Or.inl rfl

end

theorem writeParts_whole {parts : List Bytes} {s : Stream} (hc : s.connected = true)
    (hacc : s.accepts = []) (hparts : ∀ part ∈ parts, part ≠ [] ∧ part.length < 2 ^ 31) :
    writeParts parts s = .ok (true, { s with sent := s.sent ++ parts.flatten }) := by
  induction parts generalizing s with
  | nil => simp [writeParts]
  | cons part parts ih =>
      obtain ⟨hne, hn⟩ := hparts part (List.mem_cons_self ..)
      have hpos := List.length_pos_iff.mpr hne
      rw [writeParts, Stream.writeFixedSize_whole hc hacc hne hn, ok_bind]
      dsimp only
      rw [if_neg (by omega),
        ih (s := { s with sent := s.sent ++ part }) hc hacc
          fun p hp => hparts p (List.mem_cons_of_mem part hp)]
      simp

theorem wsSendMessage_whole (native : Endian) {opcode : ℕ} {payload : Bytes} (client fin : Bool)
    (randValue : UInt32) {s : Stream} (hop : opcode < 16) (hc : s.connected = true)
    (hacc : s.accepts = []) (hne : payload ≠ []) (hlt : payload.length < websocketMsgMaxSize) :
    ∃ f : WireFrame, f.head.opcode = opcode ∧ f.head.fin = fin ∧ f.head.mask = client ∧
      f.body = payload ∧ (client = true → f.key = store native 4 randValue.toNat) ∧
      wsSendMessage native s ⟨opcode, payload⟩ client fin randValue =
        .ok ((payload.length : ℤ) + 2, { s with sent := s.sent ++ f.bytes }) := by
  have hlimit : websocketMsgMaxSize + 2 < 2 ^ 31 := by decide
  have hpos := List.length_pos_iff.mpr hne
  have hlen : payload.length < 2 ^ 64 := by omega
  refine ⟨sentFrame native client fin randValue hop hlen, rfl, rfl, rfl, rfl, ?_, ?_⟩
  · rintro rfl
    rfl
  · have hparts : ∀ part ∈ frameParts native ⟨opcode, payload⟩ client fin randValue,
        part ≠ [] ∧ part.length < 2 ^ 31 := by
      intro part hpart
      rcases length_of_mem_frameParts native client fin randValue hpart with rfl | ⟨hp, hle⟩
      · exact ⟨hne, by omega⟩
      · exact ⟨List.ne_nil_of_length_pos hp, by omega⟩
    rw [wsSendMessage, writeParts_whole hc hacc hparts, ok_bind,
      flatten_frameParts native client fin randValue hop hlen]
    dsimp only
    rw [if_pos rfl, toInt_of_lt (by omega), Nat.cast_add]
    rfl

/-! ### A message in fragments -/

/-- One message in fragments: the later ones are continuations, and only the last is final. -/
def sendFragments (native : Endian) (randValue : UInt32) :
    ℕ → List Bytes → Stream → Except Fault (List ℤ × Stream)
  | _, [], s => .ok ([], s)
  | opcode, payload :: payloads, s => do
      let (rt, s) ← wsSendMessage native s ⟨opcode, payload⟩ false payloads.isEmpty randValue
      let (rts, s) ← sendFragments native randValue kContinue payloads s
      pure (rt :: rts, s)

/-- The frames of a message in fragments. -/
theorem sendFragments_carries (native : Endian) (randValue : UInt32) {opcode : ℕ}
    (hop : opcode = kBinFrame ∨ opcode = kTextFrame ∨ opcode = kContinue)
    {payload : Bytes} {payloads : List Bytes} {s : Stream} (hc : s.connected = true)
    (hacc : s.accepts = []) (hne : ∀ p ∈ payload :: payloads, p ≠ [])
    (hlt : (payload :: payloads).flatten.length < websocketMsgMaxSize) :
    ∃ fs last, Carries true fs last opcode (payload :: payloads).flatten ∧
      sendFragments native randValue opcode (payload :: payloads) s =
        .ok ((payload :: payloads).map fun p => (p.length : ℤ) + 2,
          { s with sent := s.sent ++ (fs.flatMap WireFrame.bytes ++ last.bytes) }) := by
  induction payloads generalizing opcode payload s with
  | nil =>
      obtain ⟨f, rfl, hfin, hmask, rfl, -, hsend⟩ := wsSendMessage_whole native false true randValue
        (dataOpcode_lt hop) hc hacc (hne payload (by simp)) (by simpa using hlt)
      have hplain : f.payload = f.body := by simp [WireFrame.payload, hmask]
      refine ⟨[], f, ?_, ?_⟩
      · have hcarries := Carries.single ⟨hop, Or.inl rfl⟩ hfin (hne f.body (by simp))
        simpa [hplain] using hcarries
      · simp [sendFragments, hsend, ok_bind, pure, Except.pure]
  | cons q ps ih =>
      rw [List.flatten_cons, List.length_append] at hlt
      obtain ⟨f, rfl, hfin, hmask, rfl, -, hsend⟩ := wsSendMessage_whole native false false
        randValue (dataOpcode_lt hop) hc hacc (hne payload (by simp)) (by omega)
      have hplain : f.payload = f.body := by simp [WireFrame.payload, hmask]
      obtain ⟨fs, last, hcarries, hrest⟩ := @ih kContinue (Or.inr (Or.inr rfl)) q
        { s with sent := s.sent ++ f.bytes } hc hacc
        (fun p hp => hne p (List.mem_cons_of_mem _ hp)) (by omega)
      refine ⟨f :: fs, last, ?_, ?_⟩
      · have hcons := hcarries.cons ⟨hop, Or.inl rfl⟩ hfin (hne f.body (by simp))
        simpa [hplain] using hcons
      · rw [sendFragments, List.isEmpty_cons, hsend, ok_bind]
        dsimp only
        rw [hrest, ok_bind]
        simp [pure, Except.pure]

/-- Unmasked frames are reassembled. One message in non-empty fragments that stay below the
limit together is written without fault, and a receiver whose stream holds the bytes written
returns it whole, in either byte order on either side, and leaves the bytes behind it. -/
theorem unmasked_fragments_reassembled (native native' : Endian) (stack : ℕ → UInt8)
    (randValue : UInt32) {opcode : ℕ} (hop : opcode = kTextFrame ∨ opcode = kBinFrame)
    {payloads : List Bytes} (hk : payloads ≠ []) (hne : ∀ p ∈ payloads, p ≠ [])
    (hlt : payloads.flatten.length < websocketMsgMaxSize) {s : Stream} (hc : s.connected = true)
    (hacc : s.accepts = []) :
    ∃ wire, sendFragments native randValue opcode payloads s =
        .ok (payloads.map fun p => (p.length : ℤ) + 2, { s with sent := s.sent ++ wire }) ∧
      ∀ (t : Stream) (rest : Bytes), t.connected = true → t.incoming = [wire ++ rest] →
        ∃ t', wsRecvMessage native' true stack t = .ok (some ⟨opcode, payloads.flatten⟩, t') ∧
          t'.incoming.flatten = rest := by
  obtain ⟨payload, payloads, rfl⟩ := List.exists_cons_of_ne_nil hk
  obtain ⟨fs, last, hcarries, hsend⟩ := sendFragments_carries native randValue
    (hop.elim (fun h => Or.inr (Or.inl h)) Or.inl) hc hacc hne hlt
  exact ⟨_, hsend, fun t rest ht hin => wsRecvMessage_carries native' stack hcarries hlt ht hin⟩

/-- Two fragments, between machines of different byte orders. -/
theorem unmasked_fragments_reassembled_two :
    ∃ wire, sendFragments .little 0 kTextFrame [[1], [2, 3]] { incoming := [] } =
        .ok ([3, 4], { incoming := [], sent := wire }) ∧
      ∃ t', wsRecvMessage .big true (fun _ => 0) { incoming := [wire ++ [9]] } =
          .ok (some ⟨1, [1, 2, 3]⟩, t') ∧ t'.incoming.flatten = [9] := by
  have hne : ∀ p ∈ ([[1], [2, 3]] : List Bytes), p ≠ [] := by simp
  obtain ⟨wire, hsend, hrecv⟩ := unmasked_fragments_reassembled .little .big (fun _ => 0) 0
    (Or.inl rfl) (by simp) hne (by decide) (s := { incoming := [] }) rfl rfl
  exact ⟨wire, hsend, hrecv _ [9] rfl rfl⟩

/-! ### A masked message -/

/-- A message that a client sends whole arrives as it was sent. -/
def MaskedRoundTrip (native native' : Endian) (stack : ℕ → UInt8) (msg : WSFrameMessage)
    (randValue : UInt32) (rest : Bytes) : Prop :=
  ∃ n s, wsSendMessage native { incoming := [] } msg true true randValue = .ok (n, s) ∧
    ∃ t, wsRecvMessage native' false stack { incoming := [s.sent ++ rest] } = .ok (some msg, t)

/-- The receiver unmasks what was never masked. -/
theorem maskedRoundTrip_iff_xorKey (native native' : Endian) (stack : ℕ → UInt8) {opcode : ℕ}
    (hop : opcode = kBinFrame ∨ opcode = kTextFrame ∨ opcode = kContinue) {payload : Bytes}
    (hne : payload ≠ []) (hlt : payload.length < websocketMsgMaxSize) (randValue : UInt32)
    (rest : Bytes) :
    MaskedRoundTrip native native' stack ⟨opcode, payload⟩ randValue rest ↔
      xorKey (store native 4 randValue.toNat) payload = payload := by
  obtain ⟨f, rfl, hfin, hmask, rfl, hkey, hsend⟩ := wsSendMessage_whole native true true randValue
    (s := { incoming := [] }) (dataOpcode_lt hop) rfl rfl hne hlt
  have hpayload : f.payload = xorKey (store native 4 randValue.toNat) f.body := by
    simp [WireFrame.payload, hmask, hkey]
  obtain ⟨t, hrecv, -⟩ := wsRecvMessage_carries native' stack
    (s := { incoming := [f.bytes ++ rest] }) (Carries.single ⟨hop, Or.inr hmask⟩ hfin hne)
    (by simpa using hlt) rfl rfl
  constructor
  · rintro ⟨n, s, hsend', t', hrecv'⟩
    cases hsend.symm.trans hsend'
    have hmsg := hrecv.symm.trans hrecv'
    simp only [Except.ok.injEq, Prod.mk.injEq, Option.some.injEq, WSFrameMessage.mk.injEq] at hmsg
    exact hpayload.symm.trans hmsg.1.2
  · intro hxor
    rw [hpayload, hxor] at hrecv
    exact ⟨_, _, hsend, t, hrecv⟩

/-- A key leaves a payload as it is exactly if the bytes of it that are used are zero. -/
theorem xorKey_eq_self_iff {key : Bytes} (hkey : key.length = 4) (payload : Bytes) :
    xorKey key payload = payload ↔ ∀ b ∈ key.take payload.length, b = 0 := by
  constructor
  · intro h b hb
    obtain ⟨i, hi, rfl⟩ := List.mem_iff_getElem.mp hb
    rw [List.length_take] at hi
    have hbyte : (xorKey key payload)[i]? = payload[i]? := by rw [h]
    have hmod : i % 4 = i := Nat.mod_eq_of_lt (by omega)
    rw [xorKey, List.getElem?_mapIdx, List.getElem?_eq_getElem (by omega : i < payload.length),
      Option.map_some, Option.some.injEq, hmod, List.getD_eq_getElem _ _ (by omega)] at hbyte
    rw [List.getElem_take]
    have hcancel := congrArg (payload[i] ^^^ ·) hbyte
    simpa [← UInt8.xor_assoc] using hcancel
  · intro h
    apply List.ext_getElem?
    intro i
    rw [xorKey, List.getElem?_mapIdx]
    by_cases hi : i < payload.length
    · have hlt : i % 4 < key.length := by omega
      have hle : i % 4 ≤ i := Nat.mod_le i 4
      have hzero : key[i % 4] = 0 := by
        apply h
        rw [List.mem_iff_getElem]
        exact ⟨i % 4, by rw [List.length_take]; omega, List.getElem_take⟩
      rw [List.getElem?_eq_getElem hi, Option.map_some, List.getD_eq_getElem _ _ hlt, hzero,
        UInt8.xor_zero]
    · rw [List.getElem?_eq_none (by omega), Option.map_none]

/-- When a masked message round-trips. For every data opcode and every payload below the
limit that is not empty, the message arrives as it was sent if and only if the bytes of the
masking key that meet a byte of the payload are zero. -/
theorem masked_message_arrives_iff (native native' : Endian) (stack : ℕ → UInt8) {opcode : ℕ}
    (hop : opcode = kBinFrame ∨ opcode = kTextFrame ∨ opcode = kContinue) {payload : Bytes}
    (hne : payload ≠ []) (hlt : payload.length < websocketMsgMaxSize) (randValue : UInt32)
    (rest : Bytes) :
    MaskedRoundTrip native native' stack ⟨opcode, payload⟩ randValue rest ↔
      ∀ b ∈ (store native 4 randValue.toNat).take payload.length, b = 0 := by
  rw [maskedRoundTrip_iff_xorKey native native' stack hop hne hlt]
  exact xorKey_eq_self_iff (length_store _ _ _) payload

/-- A key whose first two bytes are zero does nothing to two bytes of payload. -/
theorem masked_message_arrives_two_bytes :
    MaskedRoundTrip .little .little (fun _ => 0) ⟨kTextFrame, [0x68, 0x69]⟩ 0xffff0000 [] :=
  (masked_message_arrives_iff .little .little (fun _ => 0) (Or.inr (Or.inl rfl)) (by simp)
    (by decide) 0xffff0000 []).mpr (by simp [store, toLittle])

/-- A key of `1` changes the first byte. -/
theorem masked_message_altered :
    ¬ MaskedRoundTrip .little .little (fun _ => 0) ⟨kTextFrame, [0x68, 0x69]⟩ 1 [] := by
  intro h
  have hkept := (maskedRoundTrip_iff_xorKey .little .little (fun _ => 0) (Or.inr (Or.inl rfl))
    (by simp) (by decide) 1 []).mp h
  revert hkept
  decide

end Xzmjx.WebSocketModel
