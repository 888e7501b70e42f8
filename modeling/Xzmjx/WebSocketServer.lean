import Xzmjx.Base64Model
import Xzmjx.HttpDump
import Xzmjx.UrlCoding
import Xzmjx.WebSocketControl
import Xzmjx.WebSocketEncoding
import Xzmjx.WebSocketSafety

/-!
# WSServer::handleClient

A session begins with a request that asks for the protocol to be switched; then messages follow
until one cannot be read or a servlet has had enough. A servlet is a function of everything that
it may change, which is `ω` and the stream of its session. SHA-1, the conversion of a header to a
number and the choice of the servlet are parameters.
-/
namespace Xzmjx.WebSocketModel
open ByteOrder StreamModel FallibleCalls
open HttpParserModel (bytes)
open HttpRequestModel (HttpRequest HttpResponse HttpSession.recvRequest caseKey versionText CRLF)

/-- `WSServlet`. -/
structure WSServlet (ω : Type) where
  onConnect : HttpRequest → ω → Stream → ℤ × ω × Stream
  handle : HttpRequest → WSFrameMessage → ω → Stream → ℤ × ω × Stream
  onClose : HttpRequest → ω → Stream → ℤ × ω × Stream

/-- `FunctionWSServlet`; a callback that is not set returns zero. -/
def FunctionWSServlet {ω : Type} (callback : Option (HttpRequest → WSFrameMessage → ω → Stream →
      ℤ × ω × Stream))
    (connectCb closeCb : Option (HttpRequest → ω → Stream → ℤ × ω × Stream) := none) :
    WSServlet ω where
  onConnect := connectCb.getD fun _ w s => (0, w, s)
  handle := callback.getD fun _ _ w s => (0, w, s)
  onClose := closeCb.getD fun _ w s => (0, w, s)

structure WSServer (ω : Type) where
  buffSize : ℕ
  sha1sum : Bytes → Vector UInt8 20
  /-- `boost::lexical_cast<int>`; `none` is its exception. -/
  lexicalCast : Bytes → Option ℤ
  /-- `m_ws_dispatch->getWSServlet`. -/
  getWSServlet : Bytes → Option (WSServlet ω)
  native : Endian
  stack : ℕ → UInt8

/-- A call of a servlet, with what it returns. -/
inductive Call
  | onConnect (rt : ℤ)
  | handle (msg : WSFrameMessage) (rt : ℤ)
  | onClose (rt : ℤ)
  deriving DecidableEq, Repr

/-- `HttpSession::recvRequest` on the stream of a session. -/
def recvRequest (buffSize : ℕ) (s : Stream) : Option HttpRequest × Stream :=
  let (req, socket) := HttpSession.recvRequest buffSize ⟨s.incoming, s.connected⟩
  (req, { s with incoming := socket.incoming, connected := socket.connected })

/-- `HttpSession::sendResponse`. -/
def sendResponse (s : Stream) (rsp : HttpResponse) : Except Fault (ℤ × Stream) :=
  s.writeFixedSize rsp.dump rsp.dump.length

namespace WSServer
variable {ω : Type} (srv : WSServer ω)

/-- `getHeaderAs<int>`. -/
def getHeaderAsInt (req : HttpRequest) (key : Bytes) : ℤ :=
  match req.headers.find key with
  | none => 0
  | some v => (srv.lexicalCast v).getD 0

/-- The request passes the tests of `handleShake`. -/
def Accepts (req : HttpRequest) : Prop :=
  caseKey (req.getHeader (bytes "Upgrade")) = caseKey (bytes "websocket") ∧
    caseKey (req.getHeader (bytes "Connection")) = caseKey (bytes "Upgrade") ∧
    srv.getHeaderAsInt req (bytes "Sec-webSocket-Version") = 13 ∧
    req.getHeader (bytes "Sec-WebSocket-Key") ≠ []

instance (req : HttpRequest) : Decidable (srv.Accepts req) :=
  inferInstanceAs (Decidable (_ ∧ _ ∧ _ ∧ _))

/-- The value of `Sec-WebSocket-Accept`. -/
def acceptKey (key : Bytes) : Bytes :=
  Base64.base64encode
    (srv.sha1sum (key ++ bytes "258EAFA5-E914-47DA-95CA-C5AB0DC85B11")).toList

/-- The response of `handleShake`. -/
def response (req : HttpRequest) : HttpResponse :=
  let rsp := { req.createResponse with
    status := 101
    websocket := true
    reason := bytes "Web Socket Protocol Handshake" }
  ((rsp.setHeader (bytes "Upgrade") (bytes "websocket")).setHeader (bytes "Connection")
    (bytes "Upgrade")).setHeader (bytes "Sec-WebSocket-Accept")
      (srv.acceptKey (req.getHeader (bytes "Sec-WebSocket-Key")))

/-- `WSSession::handleShake`. -/
def handleShake (s : Stream) : Except Fault (Option HttpRequest × Stream) :=
  match recvRequest srv.buffSize s with
  | (none, s) => .ok (none, s)
  | (some req, s) =>
      if srv.Accepts req then do
        let (_, s) ← sendResponse s (srv.response req)
        pure (some req, s)
      else .ok (none, s)

/-- `slt->onClose` and `session->close`. -/
def finish (slt : WSServlet ω) (header : HttpRequest) (w : ω) (s : Stream) :
    List Call × ω × Stream :=
  let (rt, w, s) := slt.onClose header w s
  ([.onClose rt], w, s.close)

/-- The loop over the messages, looked at up to its `n`th round. -/
def messageLoop (slt : WSServlet ω) (header : HttpRequest) :
    ℕ → ω → Stream → Except Fault (List Call × ω × Stream)
  | 0, w, s => .ok ([], w, s)
  | n + 1, w, s => do
      let (msg, s) ← wsRecvMessage srv.native false srv.stack s
      match msg with
      | none => pure (finish slt header w s)
      | some msg =>
          let (rt, w, s) := slt.handle header msg w s
          if rt ≠ 0 then
            let (calls, w, s) := finish slt header w s
            pure (.handle msg rt :: calls, w, s)
          else do
            let (calls, w, s) ← messageLoop slt header n w s
            pure (.handle msg rt :: calls, w, s)

/-- `WSServer::handleClient`. -/
def handleClient (n : ℕ) (w : ω) (s : Stream) : Except Fault (List Call × ω × Stream) := do
  let (header, s) ← srv.handleShake s
  match header with
  | none => pure ([], w, s.close)
  | some header =>
      match srv.getWSServlet header.path with
      | none => pure ([], w, s.close)
      | some slt =>
          let (rt, w, s) := slt.onConnect header w s
          if rt ≠ 0 then pure ([.onConnect rt], w, s.close)
          else do
            let (calls, w, s) ← srv.messageLoop slt header n w s
            pure (.onConnect rt :: calls, w, s)

end WSServer

/-! ### Messages in a row -/

/-- The bytes carry the messages, each in frames of its own, and nothing else. -/
inductive Sent : List WSFrameMessage → Bytes → Prop
  | none : Sent [] []
  | message {fs : List WireFrame} {last : WireFrame} {opcode : ℕ} {data rest : Bytes}
      {ms : List WSFrameMessage} (carries : Carries false fs last opcode data)
      (short : data.length < websocketMsgMaxSize) (next : Sent ms rest) :
      Sent (⟨opcode, data⟩ :: ms) (fs.flatMap WireFrame.bytes ++ (last.bytes ++ rest))

/-- A message as a client writes it, every frame under a key of its own. -/
theorem Sent.wire {ms : List WSFrameMessage} {rest : Bytes} (h : Sent ms rest) {opcode : ℕ}
    (hop : opcode = kBinFrame ∨ opcode = kTextFrame ∨ opcode = kContinue) (fs : List ClientFrame)
    (key : Vector UInt8 4) (last : Bytes)
    (hfs : ∀ f ∈ fs, f.kind = .data ∧ f.payload ≠ [] ∧ f.payload.length < 2 ^ 63)
    (hlast : last ≠ [])
    (hlen : (fs.flatMap ClientFrame.payload ++ last).length < websocketMsgMaxSize) :
    Sent (⟨opcode, fs.flatMap ClientFrame.payload ++ last⟩ :: ms)
      (wireFrom opcode fs key last ++ rest) := by
  have hshort : last.length < 2 ^ 63 := by
    rw [List.length_append, websocketMsgMaxSize] at hlen
    omega
  obtain ⟨ws, w, hcarries, hwire⟩ := carries_wireFrom hop key hfs hlast hshort
  rw [hwire, List.append_assoc]
  exact .message hcarries hlen h

section Receiving
variable (native : Endian) (stack : ℕ → UInt8) {s : Stream}

/-- The receiver takes exactly the first message. -/
theorem wsRecvMessage_first {fs : List WireFrame} {last : WireFrame} {opcode : ℕ}
    {data rest : Bytes} (h : Carries false fs last opcode data)
    (hlt : data.length < websocketMsgMaxSize) (hc : s.connected = true)
    (hs : s.incoming = Stream.buffered (fs.flatMap WireFrame.bytes ++ (last.bytes ++ rest))) :
    wsRecvMessage native false stack s =
      .ok (some ⟨opcode, data⟩, { s with incoming := Stream.buffered rest }) := by
  have hlen : ([] : Bytes).length +
      (fs.flatMap WireFrame.payload ++ last.payload).length < websocketMsgMaxSize := by
    rw [h.data]
    simpa using hlt
  obtain ⟨σ, hloop, hop, hdata, hstream⟩ := wsRecvLoop_carries native stack
    (σ := { stream := s }) hc hs h.frames h.final rfl hlen
  rw [wsRecvMessage_returned hloop, hop, hdata, h.data, h.opcode, hstream]
  rfl

/-- At the end of the stream there is no message. -/
theorem wsRecvMessage_end (hc : s.connected = true) (hs : s.incoming = []) :
    wsRecvMessage native false stack s = .ok (none, s.close) := by
  have hread : s.readFixedSize (indeterminate stack 0 2) 0 2 =
      .ok (0, indeterminate stack 0 2, s) := by
    rw [Stream.readFixedSize, Stream.readFixedSizeFrom, toInt_of_lt (by decide), if_pos (by decide)]
    simp only [Stream.read, hc, Stream.recv, hs]
    rfl
  have hframe : recvFrame native false stack { stream := s } = .ok (.broke, { stream := s }) := by
    unfold recvFrame
    dsimp only
    rw [Nat.mul_zero, hread]
    rfl
  exact wsRecvMessage_broke (wsRecvLoop_of_frame hframe)

end Receiving

namespace WSServer
variable {ω : Type} {srv : WSServer ω} {slt : WSServlet ω} {header : HttpRequest}

/-- The servlet lets the session go on from any state that is `Ready`, and leaves what it has not
received alone. -/
structure Attends (slt : WSServlet ω) (header : HttpRequest) (Ready : ω → Stream → Prop) :
    Prop where
  connected : ∀ w s, Ready w s → s.connected = true
  incoming : ∀ w s xs, Ready w s → Ready w { s with incoming := xs }
  onConnect : ∀ w s, Ready w s → (slt.onConnect header w s).1 = 0 ∧
    Ready (slt.onConnect header w s).2.1 (slt.onConnect header w s).2.2 ∧
    (slt.onConnect header w s).2.2.incoming = s.incoming
  handle : ∀ msg w s, Ready w s → (slt.handle header msg w s).1 = 0 ∧
    Ready (slt.handle header msg w s).2.1 (slt.handle header msg w s).2.2 ∧
    (slt.handle header msg w s).2.2.incoming = s.incoming

variable {Ready : ω → Stream → Prop} {w : ω} {s : Stream} {ms : List WSFrameMessage} {rest : Bytes}

theorem messageLoop_message {n : ℕ} {msg : WSFrameMessage} {s₁ : Stream}
    (hrecv : wsRecvMessage srv.native false srv.stack s = .ok (some msg, s₁))
    (hrt : (slt.handle header msg w s₁).1 = 0) :
    srv.messageLoop slt header (n + 1) w s =
      srv.messageLoop slt header n (slt.handle header msg w s₁).2.1
        (slt.handle header msg w s₁).2.2 >>= fun r => .ok (.handle msg 0 :: r.1, r.2) := by
  rw [messageLoop, hrecv, ok_bind]
  dsimp only
  rw [hrt, if_neg (fun hne => hne rfl)]
  rfl

/-- The loop hands over the messages one by one, and ends behind the last. -/
theorem messageLoop_delivers (srv : WSServer ω) (h : Attends slt header Ready)
    (hms : Sent ms rest) {n : ℕ} (hn : ms.length < n) (hready : Ready w s)
    (hs : s.incoming = Stream.buffered rest) :
    ∃ rt w' s', srv.messageLoop slt header n w s =
        .ok (ms.map (Call.handle · 0) ++ [.onClose rt], w', s') ∧ s'.connected = false := by
  induction hms generalizing n w s with
  | none =>
      obtain ⟨n, rfl⟩ := Nat.exists_eq_add_one.mpr hn
      rw [messageLoop, wsRecvMessage_end _ _ (h.connected w s hready) hs]
      exact ⟨_, _, _, rfl, rfl⟩
  | @message fs last opcode data rest ms hcarries hshort hnext ih =>
      obtain ⟨n, rfl⟩ := Nat.exists_eq_add_one.mpr (Nat.zero_lt_of_lt hn)
      have hfirst := wsRecvMessage_first srv.native srv.stack hcarries hshort
        (h.connected w s hready) hs
      obtain ⟨hrt, hready', hincoming⟩ := h.handle ⟨opcode, data⟩ w _
        (h.incoming w s (Stream.buffered rest) hready)
      obtain ⟨rt, w', s', hloop, hclosed⟩ := ih (Nat.lt_of_succ_lt_succ hn) hready' hincoming
      refine ⟨rt, w', s', ?_, hclosed⟩
      rw [messageLoop_message hfirst hrt]
      exact congrArg (· >>= fun r => .ok (.handle ⟨opcode, data⟩ 0 :: r.1, r.2)) hloop

/-! ### The handshake -/

theorem length_encodeLoop_le (fuel : ℕ) (ret src : Bytes) :
    (Base64.encodeLoop fuel ret src).length ≤ ret.length + 4 * fuel := by
  induction fuel generalizing ret src with
  | zero => exact Nat.le_refl _
  | succ fuel ih =>
      have hgroup : ∀ packed padding, padding ≤ 2 →
          (Base64.encodeGroup packed padding).length = 4 := by
        intro packed padding hpadding
        interval_cases padding <;> rfl
      rw [Base64.encodeLoop]
      split_ifs with hsrc
      · omega
      · refine (ih _ _).trans ?_
        rw [List.length_append, hgroup _ _ (by split_ifs <;> omega)]
        omega

/-- The response before and behind the value that it computes. -/
def responseFront (version : UInt8) : Bytes :=
  versionText version ++ bytes " 101 Web Socket Protocol Handshake" ++ CRLF ++
    bytes "Connection: Upgrade" ++ CRLF ++ bytes "Sec-WebSocket-Accept: "

def responseBack : Bytes := CRLF ++ bytes "Upgrade: websocket" ++ CRLF ++ CRLF

theorem response_dump (srv : WSServer ω) (req : HttpRequest) :
    (srv.response req).dump = responseFront req.version ++
      (srv.acceptKey (req.getHeader (bytes "Sec-WebSocket-Key")) ++ responseBack) := by
  have hheader : (srv.response req).header =
      [(bytes "Connection", bytes "Upgrade"),
        (bytes "Sec-WebSocket-Accept", srv.acceptKey (req.getHeader (bytes "Sec-WebSocket-Key"))),
        (bytes "Upgrade", bytes "websocket")] := by
    rfl
  have hstart : (srv.response req).startLine =
      versionText req.version ++ bytes " 101 Web Socket Protocol Handshake" := by
    have htext : bytes " 101 Web Socket Protocol Handshake" =
        bytes " " ++ (HttpRequestModel.decimal 101 ++
          (bytes " " ++ bytes "Web Socket Protocol Handshake")) := by decide
    have hreason : (srv.response req).reason ≠ [] := List.cons_ne_nil _ _
    rw [HttpResponse.startLine, if_neg hreason, htext]
    simp only [List.append_assoc]
    rfl
  have hend : HttpRequestModel.writeBody (srv.response req).body = CRLF := rfl
  have hconnection : HttpRequestModel.writeConnection (srv.response req).websocket
      (srv.response req).close = [] := rfl
  have hcookies : (srv.response req).cookies = [] := rfl
  have hheaders : HttpRequestModel.writeHeaders (srv.response req).websocket
      (srv.response req).header =
        bytes "Connection: Upgrade" ++ (CRLF ++ (bytes "Sec-WebSocket-Accept: " ++
          (srv.acceptKey (req.getHeader (bytes "Sec-WebSocket-Key")) ++
            (CRLF ++ (bytes "Upgrade: websocket" ++ CRLF))))) := by
    have hlines : bytes "Connection: Upgrade" ++ CRLF =
          HttpRequestModel.headerLine (bytes "Connection", bytes "Upgrade") ++ CRLF ∧
        bytes "Upgrade: websocket" ++ CRLF =
          HttpRequestModel.headerLine (bytes "Upgrade", bytes "websocket") ++ CRLF := by decide
    have hname : bytes "Sec-WebSocket-Accept: " = bytes "Sec-WebSocket-Accept" ++ bytes ": " := by
      decide
    have hwebsocket : (srv.response req).websocket = true := rfl
    rw [hheader, hwebsocket, hlines.2, ← List.append_assoc (bytes "Connection: Upgrade"), hlines.1,
      hname]
    simp [HttpRequestModel.writeHeaders, HttpRequestModel.headerLine]
  rw [HttpResponse.dump, hheaders, hstart, hend, hconnection, hcookies]
  simp only [responseFront, responseBack, List.flatMap_nil, List.append_nil, List.append_assoc]

theorem length_response_lt (srv : WSServer ω) (req : HttpRequest) :
    (srv.response req).dump.length < 2 ^ 31 := by
  have hversion : (responseFront req.version).length ≤ 200 := by
    generalize req.version = v
    revert v
    exact UrlCoding.forall_byte (by decide +kernel)
  have hkey := length_encodeLoop_le 20 []
    (srv.sha1sum (req.getHeader (bytes "Sec-WebSocket-Key") ++
      bytes "258EAFA5-E914-47DA-95CA-C5AB0DC85B11")).toList
  have hlen : (srv.acceptKey (req.getHeader (bytes "Sec-WebSocket-Key"))).length ≤ 80 := by
    rw [acceptKey, Base64.base64encode, Vector.length_toList]
    exact hkey
  have hback : responseBack.length = 24 := by decide
  rw [response_dump]
  simp only [List.length_append]
  omega

/-- The handshake sends the response and hands the request over. -/
theorem handleShake_accepts {req : HttpRequest} {s' : Stream}
    (hreq : recvRequest srv.buffSize s = (some req, s')) (haccepts : srv.Accepts req)
    (hc : s'.connected = true) (hacc : s'.accepts = []) :
    srv.handleShake s =
      .ok (some req, { s' with sent := s'.sent ++ (srv.response req).dump }) := by
  have hpos : 0 < toInt (srv.response req).dump.length := by
    rw [toInt_of_lt (length_response_lt srv req), response_dump]
    simp only [List.length_append]
    have hback : responseBack.length = 24 := by decide
    omega
  rw [handleShake, hreq]
  dsimp only
  rw [if_pos haccepts, sendResponse, writeFixedSize_accepting hc hacc, if_pos hpos]
  rfl

/-- A session whose request is accepted: the response goes out, and the servlet that was found is
told of the connection, then given each message that the client sent, whole and in order, then
told of the end; the connection is closed. -/
theorem handleClient_delivers (srv : WSServer ω) (slt : WSServlet ω) (Ready : ω → Stream → Prop)
    (n : ℕ) (w : ω) (s s' : Stream) (req : HttpRequest) (ms : List WSFrameMessage) (rest : Bytes)
    (hreq : recvRequest srv.buffSize s = (some req, s')) (haccepts : srv.Accepts req)
    (hc : s'.connected = true) (hacc : s'.accepts = [])
    (hslt : srv.getWSServlet req.path = some slt) (hattends : Attends slt req Ready)
    (hready : Ready w { s' with sent := s'.sent ++ (srv.response req).dump })
    (hrest : s'.incoming = Stream.buffered rest) (hms : Sent ms rest) (hn : ms.length < n) :
    srv.handleShake s = .ok (some req, { s' with
      sent := s'.sent ++ (responseFront req.version ++
        (srv.acceptKey (req.getHeader (bytes "Sec-WebSocket-Key")) ++ responseBack)) }) ∧
    ∃ rt w' t, srv.handleClient n w s =
        .ok (.onConnect 0 :: (ms.map (Call.handle · 0) ++ [.onClose rt]), w', t) ∧
      t.connected = false := by
  have hshake := handleShake_accepts hreq haccepts hc hacc
  refine ⟨response_dump srv req ▸ hshake, ?_⟩
  obtain ⟨hrt, hready', hincoming⟩ := hattends.onConnect w _ hready
  obtain ⟨rt, w', t, hloop, hclosed⟩ := messageLoop_delivers srv hattends hms hn hready'
    (hincoming.trans hrest)
  refine ⟨rt, w', t, ?_, hclosed⟩
  rw [handleClient, hshake, ok_bind]
  dsimp only
  rw [hslt]
  dsimp only
  rw [hrt, if_neg (fun hne => hne rfl), hloop]
  rfl

/-- A servlet that keeps the messages. -/
def recorder : WSServlet (List WSFrameMessage) :=
  FunctionWSServlet (some fun _ msg w s => (0, w ++ [msg], s))

theorem recorder_attends (header : HttpRequest) :
    Attends recorder header fun _ s => s.connected = true where
  connected _ _ h := h
  incoming _ _ _ h := h
  onConnect _ _ h := ⟨rfl, h, rfl⟩
  handle _ _ _ h := ⟨rfl, h, rfl⟩

/-- A server with the recorder at `/chat`; its SHA-1 is that of the one key that is used. -/
def chat : WSServer (List WSFrameMessage) where
  buffSize := 4096
  sha1sum _ := #v[0xb3, 0x7a, 0x4f, 0x2c, 0xc0, 0x62, 0x4f, 0x16, 0x90, 0xf6, 0x46, 0x06, 0xcf,
    0x38, 0x59, 0x45, 0xb2, 0xbe, 0xc4, 0xea]
  lexicalCast v := if v = bytes "13" then some 13 else none
  getWSServlet path := if path = bytes "/chat" then some recorder else none
  native := .little
  stack _ := 0

def chatRequest : Bytes :=
  bytes "GET /chat HTTP/1.1" ++ CRLF ++ bytes "Upgrade: websocket" ++ CRLF ++
    bytes "Connection: Upgrade" ++ CRLF ++ bytes "Sec-WebSocket-Version: 13" ++ CRLF ++
    bytes "Sec-WebSocket-Key: dGhlIHNhbXBsZSBub25jZQ==" ++ CRLF ++ CRLF

/-- A text in two fragments and a binary message. -/
def chatFrames : Bytes :=
  wireFrom kTextFrame [⟨.data, [0x68], #v[1, 2, 3, 4]⟩] #v[5, 6, 7, 8] [0x69] ++
    (wireFrom kBinFrame [] #v[9, 10, 11, 12] [0, 1] ++ [])

theorem chatFrames_sent : Sent [⟨kTextFrame, [0x68, 0x69]⟩, ⟨kBinFrame, [0, 1]⟩] chatFrames := by
  have hbin : Sent [⟨kBinFrame, [0, 1]⟩] (wireFrom kBinFrame [] #v[9, 10, 11, 12] [0, 1] ++ []) :=
    Sent.none.wire (.inl rfl) [] _ [0, 1] (by simp) (by simp) (by decide)
  exact hbin.wire (.inr (.inl rfl)) [⟨.data, [0x68], #v[1, 2, 3, 4]⟩] _ [0x69] (by simp) (by simp)
    (by decide)

def chatStream : Stream := { incoming := [chatRequest, chatFrames] }

def chatHeader : HttpRequest := (recvRequest 4096 chatStream).1.getD {}

theorem recvRequest_chat :
    recvRequest 4096 chatStream = (some chatHeader, { incoming := [chatFrames] }) := by
  decide +kernel

theorem getWSServlet_chat : chat.getWSServlet chatHeader.path = some recorder := by
  have hpath : chatHeader.path = bytes "/chat" := by decide +kernel
  rw [hpath]
  rfl

theorem handleClient_delivers_chat :
    chat.handleShake chatStream = .ok (some chatHeader,
      { incoming := [chatFrames], sent := [] ++ (responseFront chatHeader.version ++
        (chat.acceptKey (chatHeader.getHeader (bytes "Sec-WebSocket-Key")) ++ responseBack)) }) ∧
    ∃ rt w' t, chat.handleClient 3 [] chatStream =
        .ok (.onConnect 0 :: ([(⟨kTextFrame, [0x68, 0x69]⟩ : WSFrameMessage),
          ⟨kBinFrame, [0, 1]⟩].map (Call.handle · 0) ++ [.onClose rt]), w', t) ∧
      t.connected = false := by
  refine handleClient_delivers chat recorder (fun _ s => s.connected = true) 3 [] chatStream _
    chatHeader _ chatFrames recvRequest_chat ?_ rfl rfl getWSServlet_chat (recorder_attends _) rfl
    ?_ chatFrames_sent (by decide)
  · decide +kernel
  · exact (Stream.buffered_of_ne_nil (by decide +kernel)).symm

example : chat.acceptKey (chatHeader.getHeader (bytes "Sec-WebSocket-Key")) =
    bytes "s3pPLMBiTxaQ9kYGzzhZRbK+xOo=" := by
  decide +kernel

/-! ### Every session -/

/-- What a servlet that lets the session begin is called for, in up to `n` rounds: messages below
the limit, and at the end `onClose` once; a call that does not return zero is the last before
it. -/
def Conversation (n : ℕ) (t : Stream) (calls : List Call) : Prop :=
  ∃ ms : List WSFrameMessage, (∀ m ∈ ms, m.data.length < websocketMsgMaxSize) ∧
    ((calls = ms.map (Call.handle · 0) ∧ ms.length = n) ∨
      (t.connected = false ∧ ∃ last rt, calls = ms.map (Call.handle · 0) ++ last ++ [.onClose rt] ∧
        (last = [] ∨ ∃ m stop, last = [.handle m stop] ∧ stop ≠ 0 ∧
          m.data.length < websocketMsgMaxSize)))

theorem returns_wsRecvMessage (native : Endian) (client : Bool) (stack : ℕ → UInt8) (s : Stream) :
    Returns (wsRecvMessage native client stack s) fun r =>
      ∀ m, r.1 = some m → m.data.length < websocketMsgMaxSize := by
  obtain ⟨⟨got, σ'⟩, hloop, σ, e, hσ, hframe, hgot⟩ :=
    returns_wsRecvLoop native client stack Relation.ReflTransGen.refl
  cases got with
  | false => exact ⟨_, wsRecvMessage_broke hloop, fun m hm => by cases hm⟩
  | true =>
      obtain ⟨r, hr, hlt, -⟩ := returns_recvFrame native client stack
        (bounded_of_reached native client stack hσ)
      cases hframe.symm.trans hr
      refine ⟨_, wsRecvMessage_returned hloop, fun m hm => ?_⟩
      cases hm
      exact hlt

/-- The loop faults nowhere, whatever the servlet does to the stream. -/
theorem messageLoop_conversation (srv : WSServer ω) (slt : WSServlet ω) (header : HttpRequest)
    (n : ℕ) (w : ω) (s : Stream) :
    Returns (srv.messageLoop slt header n w s) fun r => Conversation n r.2.2 r.1 := by
  induction n generalizing w s with
  | zero => exact returns_ok ⟨[], by simp, .inl ⟨rfl, rfl⟩⟩
  | succ n ih =>
      refine (returns_wsRecvMessage srv.native false srv.stack s).bind ?_
      rintro ⟨_ | m, s₁⟩ hshort
      · exact returns_ok ⟨[], by simp, .inr ⟨rfl, [], _, rfl, .inl rfl⟩⟩
      · have hm := hshort m rfl
        refine Returns.ite (fun hstop => ?_) fun hgo => ?_
        · exact returns_ok ⟨[], by simp, .inr ⟨rfl, _, _, rfl, .inr ⟨m, _, rfl, hstop, hm⟩⟩⟩
        · refine (ih _ _).bind ?_
          rintro ⟨calls, w', t⟩ ⟨ms, hms, hcalls⟩
          refine returns_ok ⟨m :: ms, List.forall_mem_cons.mpr ⟨hm, hms⟩, ?_⟩
          rw [Decidable.not_not.mp hgo]
          rcases hcalls with ⟨rfl, hlen⟩ | ⟨hclosed, last, rt, rfl, hlast⟩
          · exact .inl ⟨rfl, congrArg (· + 1) hlen⟩
          · exact .inr ⟨hclosed, last, rt, rfl, hlast⟩

theorem returns_handleShake (srv : WSServer ω) (s : Stream) :
    Returns (srv.handleShake s) fun r => ∀ req, r.1 = some req →
      srv.Accepts req ∧ (recvRequest srv.buffSize s).1 = some req := by
  rw [handleShake]
  rcases recvRequest srv.buffSize s with ⟨_ | req, s'⟩
  · exact returns_ok fun req hreq => by cases hreq
  · refine Returns.ite (fun haccepts => ?_) fun _ => returns_ok fun req hreq => by cases hreq
    obtain ⟨rt, t, hwrite⟩ := Stream.exists_writeFixedSizeFrom (srv.response req).dump
      (toInt (srv.response req).dump.length) s'
    refine Returns.bind (P := fun _ => True) ⟨_, hwrite, trivial⟩ fun r _ => returns_ok ?_
    intro req' hreq'
    cases hreq'
    exact ⟨haccepts, rfl⟩

/-- Whatever arrives and whatever the servlets do, a session ends without a fault, and no servlet
is called before a handshake that was accepted. -/
theorem handleClient_protocol (srv : WSServer ω) (n : ℕ) (w : ω) (s : Stream) :
    ∃ calls w' t, srv.handleClient n w s = .ok (calls, w', t) ∧
      ((calls = [] ∧ t.connected = false) ∨
        ∃ req slt, (recvRequest srv.buffSize s).1 = some req ∧ srv.Accepts req ∧
          srv.getWSServlet req.path = some slt ∧
          ((∃ rt, rt ≠ 0 ∧ calls = [.onConnect rt] ∧ t.connected = false) ∨
            ∃ conversation, calls = .onConnect 0 :: conversation ∧
              Conversation n t conversation)) := by
  have h : Returns (srv.handleClient n w s) fun r =>
      ((r.1 = [] ∧ r.2.2.connected = false) ∨
        ∃ req slt, (recvRequest srv.buffSize s).1 = some req ∧ srv.Accepts req ∧
          srv.getWSServlet req.path = some slt ∧
          ((∃ rt, rt ≠ 0 ∧ r.1 = [.onConnect rt] ∧ r.2.2.connected = false) ∨
            ∃ conversation, r.1 = .onConnect 0 :: conversation ∧
              Conversation n r.2.2 conversation)) := by
    refine (returns_handleShake srv s).bind ?_
    rintro ⟨_ | req, s₁⟩ hshake
    · exact returns_ok (.inl ⟨rfl, rfl⟩)
    · obtain ⟨haccepts, hreq⟩ := hshake req rfl
      dsimp only
      split
      · exact returns_ok (.inl ⟨rfl, rfl⟩)
      · next slt hslt =>
          refine Returns.ite (fun hstop => ?_) fun hgo => ?_
          · exact returns_ok (.inr ⟨req, slt, hreq, haccepts, hslt, .inl ⟨_, hstop, rfl, rfl⟩⟩)
          · refine (messageLoop_conversation srv slt req n _ _).bind ?_
            rintro ⟨calls, w', t⟩ hcalls
            refine returns_ok (.inr ⟨req, slt, hreq, haccepts, hslt, .inr ⟨calls, ?_, hcalls⟩⟩)
            rw [Decidable.not_not.mp hgo]
  obtain ⟨⟨calls, w', t⟩, hrun, hcalls⟩ := h
  exact ⟨calls, w', t, hrun, hcalls⟩

end WSServer

end Xzmjx.WebSocketModel
