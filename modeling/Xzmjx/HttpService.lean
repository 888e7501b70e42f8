import Xzmjx.HttpRequestRoundTrip
import Xzmjx.HttpServerRuns

/-!
# What a connection is answered

The requests that a client dumped arrive one behind another. The server answers them in their
order until the first that closes the connection, and nothing behind that one.
-/
namespace Xzmjx.HttpRequestModel
open HttpParserModel

namespace HttpServer

/-- The servlets make of a request and its response what `answer` says: they do not use the
session, and they leave the request's word about the connection as it is. -/
structure Answers (srv : HttpServer)
    (answer : HttpRequest → HttpResponse → HttpRequest × HttpResponse) : Prop where
  handle : ∀ req rsp s, srv.handle req rsp s = ((answer req rsp).1, (answer req rsp).2, s)
  close : ∀ req rsp, (answer req rsp).1.close = req.close

/-- The exchange for a request. -/
def exchangeOf (srv : HttpServer)
    (answer : HttpRequest → HttpResponse → HttpRequest × HttpResponse) (req : HttpRequest) :
    Exchange :=
  let rsp := req.createResponse.setHeader (bytes "Server") srv.name
  ⟨req, (answer req rsp).1, (answer req rsp).2⟩

/-- The request is the last that the server answers. -/
def last (srv : HttpServer) (r : WireRequest) : Bool := !srv.keepAlive || r.close

/-- The requests that are answered: those up to the first that is the last. -/
def served (srv : HttpServer) : List WireRequest → List WireRequest
  | [] => []
  | r :: rs => r :: if srv.last r then [] else srv.served rs

section
variable {srv : HttpServer} {answer : HttpRequest → HttpResponse → HttpRequest × HttpResponse}

theorem Answers.exchange (h : srv.Answers answer) (req : HttpRequest) (s : Socket) :
    srv.exchange req s = (srv.exchangeOf answer req, s) := by
  rw [HttpServer.exchange, h.handle]
  rfl

/-- One round ends the connection or goes on, as the request asks. -/
theorem Answers.round (h : srv.Answers answer) {req : HttpRequest} {s s' : Socket} (n : ℕ)
    (hrecv : HttpSession.recvRequest srv.buffSize s = (some req, s')) {r : WireRequest}
    (hr : Received r req) :
    srv.handleClient (n + 1) s = .recv (some req) :: .send (srv.exchangeOf answer req) ::
      if srv.last r then [.close] else srv.handleClient n s' := by
  rw [handleClient_some n hrecv (h.exchange req s')]
  have hclose : (srv.exchangeOf answer req).handled.close = r.close :=
    (h.close req _).trans hr.close
  rw [hclose, last]
  cases srv.keepAlive <;> cases r.close <;> rfl

/-- Each request that arrives, up to the last, is answered once and in its turn; then the
connection is closed, or the server waits for what comes next. -/
theorem handleClient_serves (h : srv.Answers answer) {s : Socket} {rs : List WireRequest}
    (hrs : Arriving srv.buffSize s rs) (n : ℕ) :
    ∃ reqs, List.Forall₂ Received (srv.served rs) reqs ∧
      srv.handleClient (rs.length + n) s =
        reqs.flatMap (fun req => [.recv (some req), .send (srv.exchangeOf answer req)]) ++
          if rs.any srv.last then [.close]
          else srv.handleClient n (HttpSession.recvRequests srv.buffSize rs.length s).2 := by
  induction rs generalizing s with
  | nil =>
      refine ⟨[], List.Forall₂.nil, ?_⟩
      rw [List.length_nil, Nat.zero_add]
      rfl
  | cons r rs ih =>
      obtain ⟨req, s', hrecv, hr, hnext⟩ := hrs.recvRequest
      rw [List.length_cons, Nat.add_right_comm, h.round _ hrecv hr, served, List.any_cons,
        HttpSession.recvRequests, hrecv]
      cases hlast : srv.last r with
      | true => exact ⟨[req], List.Forall₂.cons hr List.Forall₂.nil, rfl⟩
      | false =>
          obtain ⟨reqs, hreqs, hrun⟩ := ih hnext
          refine ⟨req :: reqs, List.Forall₂.cons hr hreqs, ?_⟩
          rw [if_neg Bool.false_ne_true, hrun]
          rfl

end

/-- A server whose servlet sends the path of the request back. -/
def echo : HttpServer where
  keepAlive := true
  name := bytes "xzmjx"
  buffSize := 4096
  handle req rsp s := (req, { rsp with body := req.path }, s)

/-- Two requests, of which the second closes the connection. -/
theorem handleClient_serves_echo :
    ∃ req req', Received getIndex req ∧ Received postForm req' ∧
      echo.handleClient 2 ⟨[getIndex.head, postForm.head ++ bytes "na", bytes "me=x"], true⟩ =
        [.recv (some req), .send (echo.exchange req ⟨[], true⟩).1, .recv (some req'),
          .send (echo.exchange req' ⟨[], true⟩).1, .close] := by
  have hanswers : echo.Answers fun req rsp => (req, { rsp with body := req.path }) :=
    ⟨fun _ _ _ => rfl, fun _ _ => rfl⟩
  obtain ⟨reqs, hreqs, hrun⟩ := handleClient_serves hanswers arriving_two 0
  rw [show echo.served [getIndex, postForm] = [getIndex, postForm] from rfl] at hreqs
  rcases hreqs with _ | ⟨hr, _ | ⟨hr', _ | _⟩⟩
  exact ⟨_, _, hr, hr', hrun⟩

end HttpServer

end Xzmjx.HttpRequestModel
