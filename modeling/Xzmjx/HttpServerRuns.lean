import Mathlib.Data.List.Chain
import Xzmjx.HttpFraming

/-!
# HttpServer::handleClient

The server decides whether to go on when it has sent a response. What the response says about
the connection was copied from the request before, when the response was created.
-/
namespace Xzmjx.HttpRequestModel
open HttpParserModel

/-- `HttpServer`: `handle` is what `m_dispatch->handle` makes of the request, of the response and
of the session's socket. -/
structure HttpServer where
  keepAlive : Bool
  name : Bytes
  buffSize : ℕ
  handle : HttpRequest → HttpResponse → Socket → HttpRequest × HttpResponse × Socket

/-- A request as it was received and as the servlets left it, and the response sent to it. -/
structure Exchange where
  received : HttpRequest
  handled : HttpRequest
  response : HttpResponse
  deriving DecidableEq, Repr

/-- What `handleClient` does with the connection: a call of `recvRequest` and its result, a
response sent, and the end. -/
inductive Event
  | recv (req : Option HttpRequest)
  | send (x : Exchange)
  | close
  deriving DecidableEq, Repr

namespace HttpServer

/-- A response for `req` as the servlets leave it. -/
def exchange (srv : HttpServer) (req : HttpRequest) (s : Socket) : Exchange × Socket :=
  let rsp := req.createResponse.setHeader (bytes "Server") srv.name
  let (handled, rsp, s) := srv.handle req rsp s
  (⟨req, handled, rsp⟩, s)

/-- `handleClient`, looked at up to the call of `recvRequest` behind the `n`th response. -/
def handleClient (srv : HttpServer) : ℕ → Socket → List Event
  | 0, s => [.recv (HttpSession.recvRequest srv.buffSize s).1]
  | n + 1, s =>
      match HttpSession.recvRequest srv.buffSize s with
      | (none, _) => [.recv none, .close]
      | (some req, s) =>
          let (x, s) := srv.exchange req s
          .recv (some req) :: .send x ::
            if ¬srv.keepAlive ∨ x.handled.close then [.close] else srv.handleClient n s

end HttpServer

/-! ### What a response says -/

/-- A field of the response says `token` about the connection. -/
def Carries (rsp : HttpResponse) (token : Bytes) : Prop :=
  ∃ l ∈ splitLines rsp.headerSection, namesConnection l ∧ fieldValue l = token

instance (rsp : HttpResponse) (token : Bytes) : Decidable (Carries rsp token) :=
  inferInstanceAs (Decidable (∃ l ∈ splitLines rsp.headerSection, namesConnection l ∧ _ = _))

/-- A response without a word about the connection of its own: not turned into one of a
websocket, clean, and without a header that only reads as one for the connection. -/
structure Plain (rsp : HttpResponse) : Prop where
  websocket : rsp.websocket = false
  headers : CleanHeaders rsp.header
  cookies : ∀ c ∈ rsp.cookies, Clean c
  connection : ∀ h ∈ rsp.header, namesConnection h.1 → isConnection h.1

/-- What a response says about the connection is what happens next. -/
def Truthful : Event → Event → Prop
  | .send x, next =>
      (Carries x.response (bytes "close") ↔ next = .close) ∧
        (Carries x.response (bytes "keep-alive") ↔ ∃ req, next = .recv req)
  | _, _ => True

/-- The value of the generated field. -/
def connectionValue (close : Bool) : Bytes := if close then bytes "close" else bytes "keep-alive"

/-- The headers and cookies say `token` about the connection. -/
def SaysItself (rsp : HttpResponse) (token : Bytes) : Prop :=
  ∃ l ∈ splitLines rsp.ownSection, namesConnection l ∧ fieldValue l = token

/-- A response to the request says `token`: by the request's flag, if the servlets have not
turned it into one of a websocket, or by its own headers. -/
def Announces (x : Exchange) (token : Bytes) : Prop :=
  (x.response.websocket = false ∧ connectionValue x.received.close = token) ∨
    SaysItself x.response token

/-- The flag of the request as received and what the servlets have written foretell the
decision. -/
def Foretold (keepAlive : Bool) (x : Exchange) : Prop :=
  (Announces x (bytes "close") ↔ (!keepAlive || x.handled.close) = true) ∧
    (Announces x (bytes "keep-alive") ↔ (!keepAlive || x.handled.close) = false)

section Responses
variable {rsp : HttpResponse} {x : Exchange} {token : Bytes}

theorem fieldValue_connectionLine (close : Bool) :
    fieldValue (connectionLine close) = connectionValue close := by
  cases close <;> decide

/-- A response says what its flag generates and what its headers and cookies say. -/
theorem carries_iff :
    Carries rsp token ↔
      (rsp.websocket = false ∧ connectionValue rsp.close = token) ∨ SaysItself rsp token := by
  rw [Carries, HttpResponse.splitLines_headerSection]
  constructor
  · rintro ⟨l, hl, hname, hvalue⟩
    rw [List.mem_append, List.mem_append] at hl
    rcases hl with (hl | hl) | hl
    · exact .inr ⟨l, hl, hname, hvalue⟩
    · rw [connectionLines] at hl
      split_ifs at hl with hws
      · cases hl
      · obtain rfl := List.mem_singleton.mp hl
        exact .inl ⟨Bool.eq_false_iff.mpr hws, (fieldValue_connectionLine _).symm.trans hvalue⟩
    · exact absurd hname (not_namesConnection_lengthLines hl)
  · rintro (⟨hws, rfl⟩ | ⟨l, hl, hsays⟩)
    · refine ⟨connectionLine rsp.close, ?_, rfl, fieldValue_connectionLine _⟩
      apply List.mem_append_left
      apply List.mem_append_right
      rw [connectionLines, hws]
      exact List.mem_singleton_self _
    · exact ⟨l, List.mem_append_left _ (List.mem_append_left _ hl), hsays⟩

/-- A plain response leaves the announcement to the flag. -/
theorem Plain.not_saysItself (h : Plain rsp) : ¬SaysItself rsp token := by
  rintro ⟨l, hl, hname, -⟩
  rw [HttpResponse.splitLines_ownSection h.headers h.cookies] at hl
  rcases List.mem_append.mp hl with hl | hl
  · obtain ⟨header, hin, rfl⟩ := List.mem_map.mp hl
    obtain ⟨hin, hkept⟩ := List.mem_filter.mp hin
    rw [namesConnection_headerLine] at hname
    rw [h.websocket, h.connection header hin hname] at hkept
    cases hkept
  · obtain ⟨c, -, rfl⟩ := List.mem_map.mp hl
    rw [namesConnection, fieldName_cookieLine] at hname
    exact absurd hname (by decide)

theorem Plain.announces_iff (h : Plain x.response) :
    Announces x token ↔ connectionValue x.received.close = token := by
  rw [Announces, or_iff_left h.not_saysItself]
  exact and_iff_right h.websocket

/-- For a plain response the decision is the flag of the request as received. -/
theorem Plain.foretold_iff (h : Plain x.response) {keepAlive : Bool} :
    Foretold keepAlive x ↔ x.received.close = (!keepAlive || x.handled.close) := by
  rw [Foretold, h.announces_iff, h.announces_iff]
  cases x.received.close <;> cases (!keepAlive || x.handled.close) <;> decide

/-- An announcement is true exactly if it is foretold. -/
theorem truthful_iff {keepAlive : Bool} {next : Event} (hflag : x.response.close = x.received.close)
    (hends : (!keepAlive || x.handled.close) = true → next = .close)
    (hgoes : (!keepAlive || x.handled.close) = false → ∃ req, next = .recv req) :
    Truthful (.send x) next ↔ Foretold keepAlive x := by
  rw [Truthful, Foretold, carries_iff, carries_iff, hflag]
  have hclose : next = .close ↔ (!keepAlive || x.handled.close) = true := by
    refine ⟨fun hnext => ?_, hends⟩
    by_contra hnot
    obtain ⟨req, hreq⟩ := hgoes (Bool.eq_false_iff.mpr hnot)
    rw [hnext] at hreq
    cases hreq
  have hrecv : (∃ req, next = .recv req) ↔ (!keepAlive || x.handled.close) = false := by
    refine ⟨?_, hgoes⟩
    rintro ⟨req, hreq⟩
    by_contra hnot
    rw [hends (Bool.not_eq_false _ ▸ hnot)] at hreq
    cases hreq
  rw [hclose, hrecv]
  rfl

end Responses

namespace HttpServer
variable {srv : HttpServer}

/-- A call of `recvRequest` comes first. -/
theorem handleClient_head (srv : HttpServer) (n : ℕ) (s : Socket) :
    ∃ req rest, srv.handleClient n s = .recv req :: rest := by
  cases n with
  | zero => exact ⟨_, _, rfl⟩
  | succ n =>
      rw [handleClient]
      rcases HttpSession.recvRequest srv.buffSize s with ⟨_ | req, s'⟩
      · exact ⟨_, _, rfl⟩
      · exact ⟨_, _, rfl⟩

theorem handleClient_none {s s' : Socket} (n : ℕ)
    (hrecv : HttpSession.recvRequest srv.buffSize s = (none, s')) :
    srv.handleClient (n + 1) s = [.recv none, .close] := by
  rw [handleClient, hrecv]

theorem handleClient_some {req : HttpRequest} {x : Exchange} {s s' s'' : Socket} (n : ℕ)
    (hrecv : HttpSession.recvRequest srv.buffSize s = (some req, s'))
    (hx : srv.exchange req s' = (x, s'')) :
    srv.handleClient (n + 1) s = .recv (some req) :: .send x ::
      if ¬srv.keepAlive ∨ x.handled.close then [.close] else srv.handleClient n s'' := by
  rw [handleClient, hrecv]
  dsimp only
  rw [hx]

/-- One round: the response is followed by what its exchange decides. -/
theorem truthful_round (hclose : ∀ req rsp s, (srv.handle req rsp s).2.1.close = rsp.close)
    {req : HttpRequest} {s : Socket} {x : Exchange} {s' : Socket}
    (hx : srv.exchange req s = (x, s')) (n : ℕ) {next : Event} {rest : List Event}
    (hnext : next :: rest =
      if ¬srv.keepAlive ∨ x.handled.close then [.close] else srv.handleClient n s') :
    Truthful (.send x) next ↔ Foretold srv.keepAlive x := by
  have hflag : x.response.close = x.received.close := by
    have hrsp : x = (srv.exchange req s).1 := by rw [hx]
    rw [hrsp]
    exact hclose _ _ _
  apply truthful_iff hflag
  · intro hends
    have hbreak : ¬srv.keepAlive ∨ x.handled.close := by
      rw [Bool.or_eq_true, Bool.not_eq_true'] at hends
      exact hends.imp (fun hk => by rw [hk]; exact Bool.false_ne_true) id
    rw [if_pos hbreak] at hnext
    exact (List.cons.inj hnext).1
  · intro hgoes
    rw [Bool.or_eq_false_iff, Bool.not_eq_false'] at hgoes
    have hloop : ¬(¬srv.keepAlive ∨ x.handled.close) := by
      rw [hgoes.1, hgoes.2]
      decide
    obtain ⟨req', rest', hhead⟩ := srv.handleClient_head n s'
    rw [if_neg hloop, hhead] at hnext
    exact ⟨req', (List.cons.inj hnext).1⟩

/-- On a connection every announcement is true exactly if every response is foretold. -/
theorem truthful_run (hclose : ∀ req rsp s, (srv.handle req rsp s).2.1.close = rsp.close) (n : ℕ)
    (s : Socket) :
    List.IsChain Truthful (srv.handleClient n s) ↔
      ∀ x, .send x ∈ srv.handleClient n s → Foretold srv.keepAlive x := by
  induction n generalizing s with
  | zero =>
      rw [handleClient]
      apply iff_of_true (List.isChain_singleton _)
      intro x hx
      cases List.mem_singleton.mp hx
  | succ n ih =>
      rcases hrecv : HttpSession.recvRequest srv.buffSize s with ⟨_ | req, s'⟩
      · rw [handleClient_none n hrecv]
        apply iff_of_true (.cons_cons trivial (List.isChain_singleton _))
        intro x hx
        simp at hx
      · obtain ⟨x, s'', hexchange⟩ : ∃ x s'', srv.exchange req s' = (x, s'') := ⟨_, _, rfl⟩
        rw [handleClient_some n hrecv hexchange]
        obtain ⟨next, rest, htail⟩ : ∃ next rest,
            (if ¬srv.keepAlive ∨ x.handled.close then [.close] else srv.handleClient n s'') =
              next :: rest := by
          split_ifs
          · exact ⟨_, _, rfl⟩
          · obtain ⟨req', rest', hhead⟩ := srv.handleClient_head n s''
            exact ⟨_, _, hhead⟩
        have hround := truthful_round hclose hexchange n htail.symm
        have hrest : List.IsChain Truthful (next :: rest) ↔
            ∀ x, .send x ∈ next :: rest → Foretold srv.keepAlive x := by
          rw [← htail]
          split_ifs
          · apply iff_of_true (List.isChain_singleton _)
            intro y hy
            cases List.mem_singleton.mp hy
          · exact ih s''
        rw [htail, List.isChain_cons_cons, List.isChain_cons_cons, hround, hrest]
        constructor
        · rintro ⟨-, hx, hall⟩ y hy
          rcases List.mem_cons.mp hy with hy | hy
          · cases hy
          rcases List.mem_cons.mp hy with hy | hy
          · obtain rfl := Event.send.inj hy
            exact hx
          · exact hall y hy
        · intro hall
          exact ⟨trivial, hall x (by simp), fun y hy =>
            hall y (List.mem_cons_of_mem _ (List.mem_cons_of_mem _ hy))⟩

/-- Every announcement on a connection is true exactly if what the request's flag and the
servlets' headers say is what the server decides. For plain responses that is: the flag of the
request, as it was received, is the decision. -/
theorem announcements_true_iff (srv : HttpServer)
    (hclose : ∀ req rsp s, (srv.handle req rsp s).2.1.close = rsp.close) (n : ℕ) (s : Socket) :
    (List.IsChain Truthful (srv.handleClient n s) ↔
      ∀ x, .send x ∈ srv.handleClient n s → Foretold srv.keepAlive x) ∧
    ∀ x, Plain x.response →
      (Foretold srv.keepAlive x ↔ x.received.close = (!srv.keepAlive || x.handled.close)) :=
  ⟨truthful_run hclose n s, fun _ h => h.foretold_iff⟩

/-- Every response of a run is one that the servlets have made. -/
theorem exists_of_mem_handleClient {n : ℕ} {s : Socket} {x : Exchange}
    (h : .send x ∈ srv.handleClient n s) : ∃ req s', x = (srv.exchange req s').1 := by
  induction n generalizing s with
  | zero => cases List.mem_singleton.mp h
  | succ n ih =>
      rcases hrecv : HttpSession.recvRequest srv.buffSize s with ⟨_ | req, s'⟩
      · rw [handleClient_none n hrecv] at h
        simp at h
      · rw [handleClient_some n hrecv rfl] at h
        rcases List.mem_cons.mp h with h | h
        · cases h
        rcases List.mem_cons.mp h with h | h
        · exact ⟨req, s', Event.send.inj h⟩
        · split_ifs at h
          · cases List.mem_singleton.mp h
          · exact ih h

/-- A server whose servlets do nothing. -/
def idle (keepAlive : Bool) : HttpServer where
  keepAlive := keepAlive
  name := bytes "xzmjx"
  buffSize := 4096
  handle req rsp s := (req, rsp, s)

theorem idle_plain {keepAlive : Bool} {n : ℕ} {s : Socket} {x : Exchange}
    (h : .send x ∈ (idle keepAlive).handleClient n s) : Plain x.response := by
  obtain ⟨req, s', rfl⟩ := exists_of_mem_handleClient h
  have hheader : ((idle keepAlive).exchange req s').1.response.header =
      [(bytes "Server", bytes "xzmjx")] := rfl
  refine ⟨rfl, ?_, ?_, ?_⟩
  · rw [hheader]
    decide
  · intro c hc
    cases hc
  · rw [hheader]
    decide

/-- A server that keeps connections alive announces the truth to any client. -/
theorem announcements_true_keepAlive :
    List.IsChain Truthful ((idle true).handleClient 2
      ⟨[bytes "GET /a HTTP/1.1\r\nConnection: keep-alive\r\n\r\n",
        bytes "GET /a HTTP/1.1\r\n\r\n"], true⟩) := by
  obtain ⟨hiff, hplain⟩ := announcements_true_iff (idle true) (fun _ _ _ => rfl) 2
    ⟨[bytes "GET /a HTTP/1.1\r\nConnection: keep-alive\r\n\r\n",
      bytes "GET /a HTTP/1.1\r\n\r\n"], true⟩
  rw [hiff]
  intro x hx
  rw [hplain x (idle_plain hx)]
  obtain ⟨req, s', rfl⟩ := exists_of_mem_handleClient hx
  rfl

/-- A request that asks to keep the connection. -/
def keepRequest : HttpRequest where
  close := false
  path := bytes "/a"
  headers := [(bytes "Connection", bytes "keep-alive")]

/-- The server that closes every connection promises such a request to keep it. -/
theorem announces_keepAlive_and_closes :
    (∀ req rsp s, ((idle false).handle req rsp s).2.1.close = rsp.close) ∧
      ¬List.IsChain Truthful ((idle false).handleClient 1
        ⟨[bytes "GET /a HTTP/1.1\r\nConnection: keep-alive\r\n\r\n"], true⟩) := by
  have hrun : (idle false).handleClient 1
      ⟨[bytes "GET /a HTTP/1.1\r\nConnection: keep-alive\r\n\r\n"], true⟩ =
        [.recv (some keepRequest), .send ((idle false).exchange keepRequest ⟨[], true⟩).1,
          .close] := by
    decide +kernel
  refine ⟨fun _ _ _ => rfl, fun h => ?_⟩
  rw [hrun, List.isChain_cons_cons, List.isChain_cons_cons] at h
  obtain ⟨-, ⟨-, hkeep⟩, -⟩ := h
  obtain ⟨req, hreq⟩ := hkeep.mp (by decide +kernel)
  cases hreq

end HttpServer

end Xzmjx.HttpRequestModel
