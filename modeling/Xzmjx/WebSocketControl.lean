import Xzmjx.WebSocketFrames

/-!
# Control frames between the frames of a message

A client masks every frame, so a ping or a pong carries a key and possibly a
payload. The receiver reads only its head and takes what follows for the next
head. Whether a message survives then depends on the key, which the sender
chooses at random.
-/
namespace Xzmjx.WebSocketModel
open ByteOrder StreamModel FallibleCalls

/-! ### The bytes of a client -/

/-- The head of a masked frame, and the bytes that extend its length: as few as possible. -/
def clientHead (opcode : ℕ) (fin : Bool) (n : ℕ) : WSFrameHead where
  opcode := opcode
  fin := fin
  payload := if n < 126 then n else if n < 2 ^ 16 then 126 else 127
  mask := true

def clientExt (n : ℕ) : Bytes :=
  if n < 126 then [] else if n < 2 ^ 16 then store .big 2 n else store .big 8 n

def encode (opcode : ℕ) (fin : Bool) (key : Vector UInt8 4) (payload : Bytes) : Bytes :=
  (clientHead opcode fin payload.length).toBytes ++
    (clientExt payload.length ++ (key.toList ++ xorKey key.toList payload))

theorem clientHead_coded (opcode : ℕ) (fin : Bool) {n : ℕ} (hn : n < 2 ^ 64) :
    LengthCode (clientHead opcode fin n).payload (clientExt n) n := by
  unfold clientHead clientExt
  dsimp only
  split_ifs with hshort hmedium
  · exact .short hshort
  · exact .medium hmedium
  · exact .long hn

theorem exists_encode {opcode : ℕ} (fin : Bool) (key : Vector UInt8 4) {payload : Bytes}
    (hop : opcode < 16) (hlen : payload.length < 2 ^ 63) :
    ∃ f : WireFrame, f.bytes = encode opcode fin key payload ∧ f.head.opcode = opcode ∧
      f.head.fin = fin ∧ f.head.mask = true ∧ f.body.length = payload.length ∧
      f.payload = payload := by
  have hcoded : LengthCode (clientHead opcode fin payload.length).payload
      (clientExt payload.length) (xorKey key.toList payload).length := by
    rw [length_xorKey]
    exact clientHead_coded opcode fin (by omega)
  refine ⟨⟨clientHead opcode fin payload.length, clientExt payload.length, key.toList,
    xorKey key.toList payload, hop, hcoded, key.length_toList⟩, rfl, rfl, rfl, rfl,
    length_xorKey _ _, ?_⟩
  exact (if_pos rfl).trans (xorKey_xorKey _ _)

inductive FrameKind
  | data
  | ping
  | pong
  deriving DecidableEq, Repr

structure ClientFrame where
  kind : FrameKind
  payload : Bytes
  key : Vector UInt8 4

/-- The frames before the final data frame, and that frame. The first data frame has the
opcode of the message, the later ones are continuations. -/
def wireFrom (opcode : ℕ) : List ClientFrame → Vector UInt8 4 → Bytes → Bytes
  | [], key, last => encode opcode true key last
  | f :: fs, key, last =>
      match f.kind with
      | .data => encode opcode false f.key f.payload ++ wireFrom kContinue fs key last
      | .ping => encode kPing true f.key f.payload ++ wireFrom opcode fs key last
      | .pong => encode kPong true f.key f.payload ++ wireFrom opcode fs key last

theorem carries_wireFrom {opcode : ℕ}
    (hop : opcode = kBinFrame ∨ opcode = kTextFrame ∨ opcode = kContinue) {fs : List ClientFrame}
    (key : Vector UInt8 4) {last : Bytes}
    (hfs : ∀ f ∈ fs, f.kind = .data ∧ f.payload ≠ [] ∧ f.payload.length < 2 ^ 63)
    (hlast : last ≠ []) (hlen : last.length < 2 ^ 63) :
    ∃ ws w, Carries false ws w opcode (fs.flatMap ClientFrame.payload ++ last) ∧
      wireFrom opcode fs key last = ws.flatMap WireFrame.bytes ++ w.bytes := by
  induction fs generalizing opcode with
  | nil =>
      obtain ⟨w, hbytes, rfl, hfin, hmask, hbody, rfl⟩ := exists_encode true key
        (dataOpcode_lt hop) hlen
      exact ⟨[], w, Carries.single ⟨hop, Or.inr hmask⟩ hfin (WireFrame.body_ne_nil hlast),
        by simp [wireFrom, hbytes]⟩
  | cons f fs ih =>
      obtain ⟨hkind, hpayload, hshort⟩ := hfs f (List.mem_cons_self ..)
      obtain ⟨ws, w, hcarries, hwire⟩ := @ih kContinue (Or.inr (Or.inr rfl))
        fun g hg => hfs g (List.mem_cons_of_mem f hg)
      obtain ⟨v, hbytes, rfl, hfin, hmask, hbody, hv⟩ := exists_encode false f.key
        (dataOpcode_lt hop) hshort
      have hne : v.body ≠ [] := WireFrame.body_ne_nil (hv.symm ▸ hpayload)
      refine ⟨v :: ws, w, ?_, by simp [wireFrom, hkind, hbytes, hwire]⟩
      have hcons := hcarries.cons ⟨hop, Or.inr hmask⟩ hfin hne
      simpa [hv] using hcons

/-! ### A control frame -/

section

variable (native : Endian) (stack : ℕ → UInt8) {tail : Bytes} {σ : RecvState}

/-- A server leaves the loop at an unmasked data frame. -/
theorem recvFrame_unmasked {head : WSFrameHead} (hc : σ.stream.connected = true)
    (hs : σ.stream.incoming = Stream.buffered (head.toBytes ++ tail))
    (hop : head.opcode = kTextFrame) (hlen : head.payload < 128) (hmask : head.mask = false) :
    ∃ σ', recvFrame native false stack σ = .ok (.broke, σ') := by
  refine ⟨σ.holding tail, ?_⟩
  rw [recvFrame_head native stack (by rw [hop]; decide) hlen hc hs, recvBody,
    if_neg (by rw [hop]; decide), if_neg (by rw [hop]; decide), if_pos (Or.inr (Or.inl hop)),
    recvData, if_pos (by simp [hmask])]
  rfl

/-- A masking key that reads as the head of an unmasked frame. -/
def strayKey : Vector UInt8 4 := #v[1, 0, 0, 0]

/-- The head of a control frame is skipped. -/
theorem recvBody_control (head : WSFrameHead) (hc : σ.stream.connected = true)
    (hop : head.opcode = kPing ∨ head.opcode = kPong) :
    ∃ e σ', recvBody native false stack head σ = .ok (e, σ') ∧ (e = .broke ∨ e = .again ∧
      σ'.stream.connected = true ∧ σ'.stream.incoming = σ.stream.incoming) := by
  rcases hop with hop | hop
  · obtain ⟨⟨rt, s⟩, hpong, -⟩ := returns_sendControl kPong σ.stream
    obtain ⟨hin, hopen⟩ := sendControl_receives hpong
    rw [recvBody, if_pos hop, wsPong, hpong, ok_bind]
    refine ⟨_, _, rfl, ?_⟩
    by_cases hrt : rt ≤ 0
    · exact Or.inl (if_pos hrt)
    · exact Or.inr ⟨if_neg hrt, (hopen (by omega)).trans hc, hin⟩
  · rw [recvBody, if_neg (by rw [hop]; decide), if_pos hop]
    exact ⟨_, _, rfl, Or.inr ⟨rfl, hc, rfl⟩⟩

/-- A control frame under the stray key ends the loop. -/
theorem wsRecvLoop_stray {opcode : ℕ} {payload : Bytes} (hc : σ.stream.connected = true)
    (hop : opcode = kPing ∨ opcode = kPong) (hlen : payload.length ≤ 125)
    (hs : σ.stream.incoming =
      Stream.buffered (encode opcode true strayKey payload ++ tail)) :
    ∃ σ', wsRecvLoop native false stack σ = .ok (false, σ') := by
  let head := clientHead opcode true payload.length
  let stray : WSFrameHead := { opcode := kTextFrame, fin := false, payload := 0, mask := false }
  have hext : clientExt payload.length = [] := if_pos (by omega)
  have hkey : strayKey.toList = stray.toBytes ++ [0, 0] := by decide
  have hop16 : opcode < 16 := by rcases hop with rfl | rfl <;> decide
  have hfield : head.payload < 128 := by
    have : head.payload = payload.length := if_pos (by omega)
    omega
  rw [encode, hext, hkey] at hs
  simp only [List.nil_append, List.append_assoc] at hs
  have hframe : recvFrame native false stack σ = _ :=
    recvFrame_head native stack hop16 hfield hc hs
  obtain ⟨e, σ₁, hbody, hnext⟩ := recvBody_control native stack head
    (σ := σ.holding (stray.toBytes ++ ([0, 0] ++ (xorKey strayKey.toList payload ++ tail)))) hc hop
  have hfirst := wsRecvLoop_of_frame (hframe.trans hbody)
  rcases hnext with rfl | ⟨rfl, hc₁, hs₁⟩
  · exact ⟨σ₁, hfirst⟩
  · obtain ⟨σ₂, hsecond⟩ := recvFrame_unmasked native stack hc₁ hs₁ rfl (by decide) rfl
    exact ⟨σ₂, hfirst.trans (wsRecvLoop_of_frame hsecond)⟩

/-- The frames are data and not empty, and stay below the limit with the bytes held before. -/
def Receivable (held : ℕ) (fs : List ClientFrame) (last : Bytes) : Prop :=
  (∀ f ∈ fs, f.kind = .data ∧ f.payload ≠ []) ∧ last ≠ [] ∧
    held + (fs.flatMap ClientFrame.payload ++ last).length < websocketMsgMaxSize

theorem receivable_cons {held : ℕ} {f : ClientFrame} {fs : List ClientFrame} {last : Bytes}
    (hkind : f.kind = .data) (hpayload : f.payload ≠ [])
    (h : Receivable (held + f.payload.length) fs last) : Receivable held (f :: fs) last := by
  obtain ⟨hall, hlast, hlt⟩ := h
  refine ⟨by simpa using ⟨⟨hkind, hpayload⟩, hall⟩, hlast, ?_⟩
  simp only [List.flatMap_cons, List.length_append] at hlt ⊢
  omega

section

variable {opcode : ℕ} (hop : opcode = kBinFrame ∨ opcode = kTextFrame ∨ opcode = kContinue)
  {fin : Bool} {key : Vector UInt8 4} {payload : Bytes} (hlen : payload.length < 2 ^ 63)
  (hc : σ.stream.connected = true)
  (hs : σ.stream.incoming = Stream.buffered (encode opcode fin key payload ++ tail))
  (hcur : σ.curLen = σ.data.length)

include hop hlen hc hs hcur

/-- A data frame of a client that fits is appended. -/
theorem recvFrame_encode_fits (hne : payload ≠ [])
    (hlt : σ.data.length + payload.length < websocketMsgMaxSize) :
    ∃ σ', recvFrame native false stack σ = .ok (if fin then .returned else .again, σ') ∧
      σ'.stream.connected = true ∧ σ'.stream.incoming = Stream.buffered tail ∧
      σ'.curLen = σ'.data.length ∧ σ'.data.length = σ.data.length + payload.length := by
  obtain ⟨f, hbytes, rfl, rfl, hmask, hbody, hpayload⟩ := exists_encode fin key
    (dataOpcode_lt hop) hlen
  rw [← hbytes] at hs
  have hbodyNe : f.body ≠ [] := WireFrame.body_ne_nil (hpayload.symm ▸ hne)
  have hdata : (σ.accept f tail).data.length = σ.data.length + payload.length := by
    simp [RecvState.accept, hpayload]
  refine ⟨σ.accept f tail, recvFrame_accepts native stack ⟨hop, Or.inr hmask⟩ hc hs hcur
    (by omega) hbodyNe, hc, rfl, ?_, hdata⟩
  rw [hdata, ← hbody]
  simp [RecvState.accept]

theorem recvFrame_encode_refused (hsmall : σ.data.length < websocketMsgMaxSize)
    (h : payload = [] ∨ websocketMsgMaxSize ≤ σ.data.length + payload.length) :
    ∃ σ', recvFrame native false stack σ = .ok (.broke, σ') := by
  obtain ⟨f, hbytes, rfl, rfl, hmask, hbody, hpayload⟩ := exists_encode fin key
    (dataOpcode_lt hop) hlen
  rw [← hbytes] at hs
  refine recvFrame_refuses native stack ⟨hop, Or.inr hmask⟩ hc hs hcur hsmall (by omega) ?_
  rwa [← List.length_eq_zero_iff, hbody, List.length_eq_zero_iff]

end

/-- The loop does not return a message if a control frame under the stray key, a frame
without payload or too many bytes come before the end of the final frame. -/
theorem wsRecvLoop_disturbed {opcode : ℕ}
    (hop : opcode = kBinFrame ∨ opcode = kTextFrame ∨ opcode = kContinue) {fs : List ClientFrame}
    {key : Vector UInt8 4} {last : Bytes} (hc : σ.stream.connected = true)
    (hs : σ.stream.incoming = Stream.buffered (wireFrom opcode fs key last ++ tail))
    (hstray : ∀ f ∈ fs, f.kind ≠ .data → f.key = strayKey ∧ f.payload.length ≤ 125)
    (hlen : ∀ f ∈ fs, f.payload.length < 2 ^ 63) (hlast : last.length < 2 ^ 63)
    (hcur : σ.curLen = σ.data.length) (hsmall : σ.data.length < websocketMsgMaxSize)
    (hbad : ¬Receivable σ.data.length fs last) :
    ∃ σ', wsRecvLoop native false stack σ = .ok (false, σ') := by
  induction fs generalizing opcode σ with
  | nil =>
      have hrefused : last = [] ∨ websocketMsgMaxSize ≤ σ.data.length + last.length := by
        by_contra hno
        obtain ⟨hne, hlt⟩ := not_or.mp hno
        exact hbad ⟨by simp, hne, by simp; omega⟩
      obtain ⟨σ', hframe⟩ := recvFrame_encode_refused native stack hop hlast hc hs hcur hsmall
        hrefused
      exact ⟨σ', wsRecvLoop_of_frame hframe⟩
  | cons f fs ih =>
      have hflen := hlen f (List.mem_cons_self ..)
      have hfstray := hstray f (List.mem_cons_self ..)
      cases hkind : f.kind with
      | ping =>
          obtain ⟨hkey, hshort⟩ := hfstray (by simp [hkind])
          simp only [wireFrom, hkind, hkey, List.append_assoc] at hs
          exact wsRecvLoop_stray native stack hc (Or.inl rfl) hshort hs
      | pong =>
          obtain ⟨hkey, hshort⟩ := hfstray (by simp [hkind])
          simp only [wireFrom, hkind, hkey, List.append_assoc] at hs
          exact wsRecvLoop_stray native stack hc (Or.inr rfl) hshort hs
      | data =>
          simp only [wireFrom, hkind, List.append_assoc] at hs
          by_cases hrefused : f.payload = [] ∨
              websocketMsgMaxSize ≤ σ.data.length + f.payload.length
          · obtain ⟨σ', hframe⟩ := recvFrame_encode_refused native stack hop hflen hc hs hcur
              hsmall hrefused
            exact ⟨σ', wsRecvLoop_of_frame hframe⟩
          · obtain ⟨hne, hlt⟩ := not_or.mp hrefused
            obtain ⟨σ₁, hframe, hc₁, hs₁, hcur₁, hdata⟩ := recvFrame_encode_fits native stack hop
              hflen hc hs hcur hne (by omega)
            obtain ⟨σ', hloop⟩ := @ih σ₁ kContinue (Or.inr (Or.inr rfl)) hc₁ hs₁
              (fun g hg => hstray g (List.mem_cons_of_mem f hg))
              (fun g hg => hlen g (List.mem_cons_of_mem f hg)) hcur₁ (by omega)
              (fun h => hbad (receivable_cons hkind hne (hdata ▸ h)))
            exact ⟨σ', (wsRecvLoop_of_frame hframe).trans hloop⟩

/-! ### Whole messages -/

/-- A server that has received these bytes. -/
def serverStream (bytes : Bytes) (accepts : List ℕ) : Stream :=
  { incoming := [bytes], accepts := accepts }

variable (accepts : List ℕ) (rest : Bytes) {opcode : ℕ} {fs : List ClientFrame} {last : Bytes}

theorem wsRecvMessage_receivable (key : Vector UInt8 4)
    (hop : opcode = kBinFrame ∨ opcode = kTextFrame ∨ opcode = kContinue)
    (hlen : ∀ f ∈ fs, f.payload.length < 2 ^ 63) (hlast : last.length < 2 ^ 63)
    (h : Receivable 0 fs last) :
    ∃ t, wsRecvMessage native false stack
          (serverStream (wireFrom opcode fs key last ++ rest) accepts) =
        .ok (some ⟨opcode, fs.flatMap ClientFrame.payload ++ last⟩, t) ∧
      t.incoming.flatten = rest := by
  obtain ⟨hfs, hne, hlt⟩ := h
  obtain ⟨ws, w, hcarries, hwire⟩ := carries_wireFrom hop key
    (fun f hf => ⟨(hfs f hf).1, (hfs f hf).2, hlen f hf⟩) hne hlast
  rw [hwire]
  exact wsRecvMessage_carries native stack hcarries (by omega) rfl rfl

theorem wsRecvMessage_disturbed (key : Vector UInt8 4)
    (hop : opcode = kBinFrame ∨ opcode = kTextFrame ∨ opcode = kContinue)
    (hstray : ∀ f ∈ fs, f.kind ≠ .data → f.key = strayKey ∧ f.payload.length ≤ 125)
    (hlen : ∀ f ∈ fs, f.payload.length < 2 ^ 63) (hlast : last.length < 2 ^ 63)
    (h : ¬Receivable 0 fs last) :
    ∃ t, wsRecvMessage native false stack
        (serverStream (wireFrom opcode fs key last ++ rest) accepts) = .ok (none, t) := by
  have hne : wireFrom opcode fs key last ++ rest ≠ [] := by
    cases fs with
    | nil => simp [wireFrom, encode, WSFrameHead.toBytes]
    | cons f fs => cases hkind : f.kind <;> simp [wireFrom, hkind, encode, WSFrameHead.toBytes]
  have hstart : 0 < websocketMsgMaxSize := by decide
  obtain ⟨σ, hloop⟩ := wsRecvLoop_disturbed native stack
    (σ := { stream := serverStream (wireFrom opcode fs key last ++ rest) accepts }) hop rfl
    (Stream.buffered_of_ne_nil hne).symm hstray hlen hlast rfl hstart h
  exact ⟨_, wsRecvMessage_broke hloop⟩

/-- Under every choice of masking keys, the receiver returns a message, the same as without the
control frames, and leaves the stream right behind the final data frame. -/
def Undisturbed (opcode : ℕ) (shape : List (FrameKind × Bytes)) (last : Bytes) : Prop :=
  ∀ (fs : List ClientFrame) (key : Vector UInt8 4),
    (fs.map fun f => (f.kind, f.payload)) = shape →
    ∃ m t t', wsRecvMessage native false stack
          (serverStream (wireFrom opcode fs key last ++ rest) accepts) = .ok (some m, t) ∧
      t.incoming.flatten = rest ∧
      wsRecvMessage native false stack
          (serverStream (wireFrom opcode (fs.filter fun f => f.kind = .data) key last ++ rest)
            accepts) = .ok (some m, t')

theorem receivable_iff_shape {fs : List ClientFrame} {shape : List (FrameKind × Bytes)}
    (h : (fs.map fun f => (f.kind, f.payload)) = shape) (last : Bytes) :
    Receivable 0 fs last ↔ (∀ f ∈ shape, f.1 = .data) ∧ (∀ f ∈ shape, f.2 ≠ []) ∧ last ≠ [] ∧
      (shape.flatMap Prod.snd ++ last).length < websocketMsgMaxSize := by
  subst h
  simp only [Receivable, List.forall_mem_map, List.flatMap_map, Nat.zero_add]
  constructor
  · rintro ⟨hall, hne, hlt⟩
    exact ⟨fun f hf => (hall f hf).1, fun f hf => (hall f hf).2, hne, hlt⟩
  · rintro ⟨hkinds, hpayloads, hne, hlt⟩
    exact ⟨fun f hf => ⟨hkinds f hf, hpayloads f hf⟩, hne, hlt⟩

/-- When control frames leave a message alone. For every message of masked frames with
pings and pongs of up to 125 bytes before its final frame, the receiver is undisturbed under
every choice of masking keys if and only if there are no pings and pongs at all, no frame of the
message is empty, and the message is below the limit. -/
theorem undisturbed_iff_no_control {shape : List (FrameKind × Bytes)}
    (hop : opcode = kTextFrame ∨ opcode = kBinFrame)
    (hcontrol : ∀ f ∈ shape, f.1 ≠ .data → f.2.length ≤ 125)
    (hlen : ∀ f ∈ shape, f.2.length < 2 ^ 63) (hlast : last.length < 2 ^ 63) :
    Undisturbed native stack accepts rest opcode shape last ↔
      (∀ f ∈ shape, f.1 = .data) ∧ (∀ f ∈ shape, f.2 ≠ []) ∧ last ≠ [] ∧
        (shape.flatMap Prod.snd ++ last).length < websocketMsgMaxSize := by
  have hdata : opcode = kBinFrame ∨ opcode = kTextFrame ∨ opcode = kContinue :=
    hop.elim (fun h => Or.inr (Or.inl h)) Or.inl
  constructor
  · intro h
    by_contra hbad
    -- every frame under the stray key
    let fs := shape.map fun f => (⟨f.1, f.2, strayKey⟩ : ClientFrame)
    have hshape : (fs.map fun f => (f.kind, f.payload)) = shape := by
      rw [List.map_map]
      exact List.map_id shape
    have hstray : ∀ f ∈ fs, f.kind ≠ .data → f.key = strayKey ∧ f.payload.length ≤ 125 := by
      simp only [fs, List.forall_mem_map, true_and]
      exact hcontrol
    have hlens : ∀ f ∈ fs, f.payload.length < 2 ^ 63 := by
      simp only [fs, List.forall_mem_map]
      exact hlen
    obtain ⟨m, t, t', hrecv, -, -⟩ := h fs strayKey hshape
    obtain ⟨u, hnone⟩ := wsRecvMessage_disturbed native stack accepts rest strayKey hdata hstray
      hlens hlast (fun hr => hbad ((receivable_iff_shape hshape last).mp hr))
    rw [hnone] at hrecv
    cases hrecv
  · rintro hcond fs key hshape
    have hr := (receivable_iff_shape hshape last).mpr hcond
    subst hshape
    have hfilter : (fs.filter fun f => f.kind = .data) = fs := by
      rw [List.filter_eq_self]
      exact fun f hf => decide_eq_true (hr.1 f hf).1
    obtain ⟨t, hrecv, hrest⟩ := wsRecvMessage_receivable native stack accepts rest key
      hdata (by simpa using hlen) hlast hr
    exact ⟨_, t, t, hrecv, hrest, by rw [hfilter]; exact hrecv⟩

end

/-- Two fragments and nothing between them. -/
theorem undisturbed_two_fragments :
    Undisturbed .little (fun _ => 0) [] [0x89] kTextFrame [(.data, [0x68])] [0x69] :=
  (undisturbed_iff_no_control .little (fun _ => 0) [] [0x89] (Or.inl rfl) (by simp) (by simp)
    (by simp)).mpr ⟨by simp, by simp, by simp, by decide⟩

/-- A ping before the one frame of a message, under the stray key: there is no message. -/
theorem ping_disturbs_message :
    (∃ t, wsRecvMessage .little false (fun _ => 0)
        (serverStream (wireFrom kTextFrame [⟨.ping, [], strayKey⟩] strayKey [0x69] ++ []) []) =
      .ok (none, t)) ∧
    ∃ t, wsRecvMessage .little false (fun _ => 0)
        (serverStream (wireFrom kTextFrame [] strayKey [0x69] ++ []) []) =
      .ok (some ⟨kTextFrame, [0x69]⟩, t) := by
  constructor
  · exact wsRecvMessage_disturbed .little (fun _ => 0) [] [] strayKey (Or.inr (Or.inl rfl))
      (by simp) (by simp) (by simp) (by simp [Receivable])
  · have hone : Receivable 0 [] [0x69] := ⟨by simp, by simp, by decide⟩
    obtain ⟨t, hrecv, -⟩ := wsRecvMessage_receivable .little (fun _ => 0) [] [] strayKey
      (Or.inr (Or.inl rfl)) (by simp) (by simp) hone
    exact ⟨t, hrecv⟩

end Xzmjx.WebSocketModel
