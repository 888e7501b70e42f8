import Xzmjx.HttpHeaderValues
import Xzmjx.HttpParamMaps
import Xzmjx.HttpSessionRuns
import Xzmjx.HttpTarget

/-!
# A request comes back

`HttpRequest::dump` on one side and `HttpSession::recvRequest` on the other. A request whose parts
the parser can tell apart arrives as it was written, with the fields for the connection and for
the length added to its headers, however its body is cut on the way.
-/
namespace Xzmjx.HttpRequestModel
open HttpParserModel PushParser

/-! ### What is written -/

/-- The value of the field that `dump` generates. -/
def closeText (close : Bool) : Bytes := if close then bytes "close" else bytes "keep-alive"

/-- A header and its line end. -/
def fieldLine (h : Bytes × Bytes) : Bytes := headerLine h ++ CRLF

namespace WireRequest

/-- The headers that are written, the field for the connection first. -/
def sent (r : WireRequest) : MapType :=
  (bytes "connection", closeText r.close) :: r.headers.filter fun h => !isConnection h.1

/-- The lines of the headers. -/
def lines (r : WireRequest) : Bytes := r.sent.flatMap fieldLine

/-- The first line and the headers. -/
def front (r : WireRequest) : Bytes := r.startLine ++ CRLF ++ r.lines

/-- Everything before the body. -/
def head (r : WireRequest) : Bytes :=
  r.front ++ (if r.body = [] then [] else lengthLine r.body ++ CRLF) ++ CRLF

/-- A request that the parser can take apart again. -/
structure Sendable (r : WireRequest) : Prop where
  websocket : r.websocket = false
  connect : r.method ≠ .connect
  msearch : r.method ≠ .msearch
  major : (r.version >>> 4).toNat < 10
  minor : (r.version &&& 0x0f).toNat < 10
  url : r.UrlSafe
  ordered : r.headers.Ordered
  headers : ∀ h ∈ r.headers, ¬isConnection h.1 → OrdinaryName h.1 ∧ IsValue h.2
  body : r.body.length < 2 ^ 63
  head : r.head.length ≤ maxHeaderSize.toNat

theorem dump_eq_head {r : WireRequest} (h : r.websocket = false) : r.dump = r.head ++ r.body := by
  have hconnection : writeConnection r.websocket r.close =
      fieldLine (bytes "connection", closeText r.close) := by
    rw [writeConnection, if_neg (by rw [h]; exact Bool.false_ne_true)]
    rfl
  have hheaders : ∀ headers : MapType, writeHeaders r.websocket headers =
      (headers.filter fun h => !isConnection h.1).flatMap fieldLine := by
    intro headers
    rw [writeHeaders, h]
    induction headers with
    | nil => rfl
    | cons x headers ih =>
        rw [List.flatMap_cons, ih, List.filter_cons]
        cases isConnection x.1 <;> rfl
  have hbody : writeBody r.body =
      (if r.body = [] then [] else lengthLine r.body ++ CRLF) ++ CRLF ++ r.body := by
    rw [writeBody]
    by_cases hb : r.body = []
    · rw [if_neg (not_not.mpr hb), if_pos hb, hb]
      rfl
    · rw [if_pos hb, if_neg hb]
  rw [dump, hconnection, hheaders, hbody, WireRequest.head, front, lines, sent,
    List.flatMap_cons]
  simp only [List.append_assoc]

theorem front_length (r : WireRequest) : r.front.length + (if r.body = [] then 0 else
    (lengthLine r.body ++ CRLF).length) + 2 = r.head.length := by
  have hcrlf : CRLF.length = 2 := rfl
  rw [WireRequest.head]
  split_ifs
  · rw [List.append_nil, List.length_append, hcrlf]
  · simp only [List.length_append]
    omega

theorem head_eq (r : WireRequest) : r.head = r.head.dropLast ++ [LF] := by
  rw [WireRequest.head, show CRLF = [CR] ++ [LF] from rfl, ← List.append_assoc _ [CR] [LF],
    List.dropLast_concat]

end WireRequest

/-! ### The callbacks -/

/-- The callbacks for one header. -/
def onHeader (g : RequestData) (h : Bytes × Bytes) : RequestData :=
  onRequestHeaderValueCb h.2 (onRequestHeaderFieldCb h.1 g)

theorem onHeaders_data (g : RequestData) (hs : MapType) :
    (hs.foldl onHeader g).data =
        { g.data with headers := hs.foldl (fun m h => MapType.set h.1 h.2 m) g.data.headers } ∧
      (hs.foldl onHeader g).finished = g.finished := by
  induction hs generalizing g with
  | nil => exact ⟨rfl, rfl⟩
  | cons h hs ih =>
      obtain ⟨hdata, hfin⟩ := ih (onHeader g h)
      exact ⟨hdata, hfin⟩

namespace WireRequest

/-- The headers that arrive. -/
def arriving (r : WireRequest) : MapType :=
  r.sent ++ if r.body = [] then [] else [(bytes "content-length", decimal r.body.length)]

/-- The map that the callbacks build of them. -/
def arrivingMap (r : WireRequest) : MapType :=
  r.arriving.foldl (fun m h => MapType.set h.1 h.2 m) []

/-- The client behind the headers. -/
def headersData (r : WireRequest) : RequestData := r.arriving.foldl onHeader r.lineData

/-- The client behind the header section. -/
def headData (r : WireRequest) : RequestData :=
  onRequestHeaderCompleteCb r.method (r.version >>> 4).toNat (r.version &&& 0x0f).toNat
    r.headersData

theorem headData_finished (r : WireRequest) : r.headData.finished = false :=
  (onHeaders_data r.lineData r.arriving).2

/-- What the parser knows behind the headers. -/
def knownLength (r : WireRequest) : Known :=
  { r.known with length := if r.body = [] then none else some r.body.length }

/-- The client behind the body. -/
def wholeData (r : WireRequest) : RequestData :=
  onRequestMessageCompleteCb (if r.body = [] then r.headData else onRequestBodyCb r.body r.headData)

end WireRequest

/-! ### Reading it -/

theorem ordinaryName_connection : OrdinaryName (bytes "connection") :=
  ⟨⟨by decide, by decide +kernel⟩, by decide +kernel, by decide +kernel, by decide +kernel⟩

theorem isValue_closeText (close : Bool) : IsValue (closeText close) := by
  cases close <;> exact ⟨by decide +kernel, by decide +kernel⟩

namespace WireRequest.Sendable
variable {r : WireRequest} (h : r.Sendable)
include h

theorem sent_header : ∀ x ∈ r.sent, OrdinaryName x.1 ∧ IsValue x.2 := by
  intro x hx
  rcases List.mem_cons.mp hx with rfl | hx
  · exact ⟨ordinaryName_connection, isValue_closeText r.close⟩
  · obtain ⟨hmem, hconn⟩ := List.mem_filter.mp hx
    exact h.headers x hmem (by simpa using hconn)

/-- The headers bring the run behind the section. -/
theorem standing_front :
    AtLine r.known r.front.length (r.sent.foldl onHeader r.lineData) (standing r.front) := by
  have hlength := r.front_length
  have hhead := h.head
  obtain ⟨m, hm⟩ : ∃ m, m = (r.startLine ++ CRLF).length := ⟨_, rfl⟩
  have hsection : r.front.length = m + r.lines.length := by
    rw [WireRequest.front, List.length_append, hm]
  have hlines : Triple machine requestSettings (AtLine r.known m r.lineData) r.lines
      (AtLine r.known (m + r.lines.length) (r.sent.foldl onHeader r.lineData)) := by
    refine Triple.flatMap r.sent (fun done => AtLine r.known (m + (done.flatMap fieldLine).length)
      (done.foldl onHeader r.lineData)) fieldLine ?_
    intro done x hx
    obtain ⟨hname, hvalue⟩ := h.sent_header x
      (hx.subset (List.mem_append_right _ List.mem_cons_self))
    have hdone : (done.flatMap fieldLine).length + (fieldLine x).length ≤ r.lines.length := by
      obtain ⟨rest, hrest⟩ := hx
      rw [WireRequest.lines, ← hrest, List.flatMap_append, List.flatMap_append,
        List.flatMap_singleton, List.length_append, List.length_append]
      omega
    have hstep := reads_header (k := r.known) (n := m + (done.flatMap fieldLine).length)
      (g := done.foldl onHeader r.lineData) hname hvalue (by
        have hline : (headerLine x ++ CRLF).length = (fieldLine x).length := rfl
        omega)
    rw [List.flatMap_append, List.flatMap_singleton, List.length_append, List.foldl_append,
      ← Nat.add_assoc]
    exact hstep
  have hstart := standing_startLine h.url h.connect h.msearch h.major h.minor (by omega)
  rw [hsection, WireRequest.front, standing_append]
  rw [← hm] at hstart
  exact hlines _ (.first hstart)

/-- The field for the length, if there is a body. -/
theorem standing_fields : ∃ n, n + 2 = r.head.length ∧ AtLine r.knownLength n r.headersData
    (standing (r.front ++ if r.body = [] then [] else lengthLine r.body ++ CRLF)) := by
  have hlength := r.front_length
  have hhead := h.head
  have hsection := h.standing_front
  by_cases hbody : r.body = []
  · rw [if_pos hbody] at hlength ⊢
    refine ⟨_, hlength, ?_⟩
    have hknown : r.knownLength = r.known := by
      rw [WireRequest.knownLength, if_pos hbody]
      rfl
    rw [hknown, List.append_nil, WireRequest.headersData, WireRequest.arriving, if_pos hbody,
      List.append_nil]
    exact hsection
  · rw [if_neg hbody] at hlength ⊢
    refine ⟨r.front.length + (lengthLine r.body ++ CRLF).length, hlength, ?_⟩
    have hline := reads_lengthLine (k := r.known) (n := r.front.length)
      (g := r.sent.foldl onHeader r.lineData) r.body rfl h.body (by omega)
    rw [WireRequest.knownLength, if_neg hbody, WireRequest.headersData, WireRequest.arriving,
      if_neg hbody, List.foldl_append, standing_append]
    exact hline _ hsection

/-- Everything but the last byte of the section. -/
theorem standing_dropLast : ∃ n, n + 1 = r.head.length ∧
    At (HttpParser.Idle .headersAlmostDone r.knownLength n) none r.headersData
      (standing r.head.dropLast) := by
  obtain ⟨n, hn, hfields⟩ := h.standing_fields
  have hhead := h.head
  refine ⟨n + 1, hn, ?_⟩
  have hdrop : r.head.dropLast =
      (r.front ++ if r.body = [] then [] else lengthLine r.body ++ CRLF) ++ [CR] := by
    rw [WireRequest.head, show CRLF = [CR] ++ [LF] from rfl, ← List.append_assoc _ [CR] [LF],
      List.dropLast_concat]
  rw [hdrop, standing_append]
  exact AtLine.close (by omega) _ hfields

end WireRequest.Sendable

/-- The body lies ahead, `n` bytes of it. -/
structure InBody (n : ℕ) (p : HttpParser) : Prop where
  state : p.state = .bodyIdentity
  calm : p.Calm
  contentLength : p.contentLength = n
  upgrade : p.upgrade = false

/-- The end of a message that asks for no upgrade. -/
structure Behind (p : HttpParser) : Prop where
  calm : p.Calm
  upgrade : p.upgrade = false

section Ends
variable {k : Known} {n len : ℕ} {g : RequestData}

/-- The line feed that ends the section announces the headers. -/
theorem step_sectionEnd {p : HttpParser} (h : p.Idle .headersAlmostDone k n)
    (hn : n < maxHeaderSize.toNat) (hconnect : k.method ≠ .connect) :
    machine.step p LF =
      ((HttpParser.headersDone { p.counted with state := .headersDone, upgrade := false } LF).1,
        .notify (.headersComplete k.method k.major k.minor) :: (HttpParser.headersDone
          { p.counted with state := .headersDone, upgrade := false } LF).2) := by
  have hc := h.counted hn
  rw [show machine.step p LF = _ from h.step_eq hn rfl]
  simp only [HttpParser.dispatch, hc.state, HttpParser.headersAlmostDone, hc.knows.trailing,
    hc.knows.encoding, hc.knows.upgradeFlag, hc.knows.method, hc.knows.major, hc.knows.minor,
    hconnect, Bool.false_eq_true, Bool.false_and, Bool.false_or, decide_false, false_and, if_false,
    not_true_eq_false, ne_eq]

/-- The end of the section is the end of a message without a body. -/
theorem reads_sectionEnd_none (hk : k.length = none) (hn : n < maxHeaderSize.toNat)
    (hconnect : k.method ≠ .connect) :
    Triple machine requestSettings (At (HttpParser.Idle .headersAlmostDone k n) none g) [LF]
      (At Behind none (onRequestMessageCompleteCb
        (onRequestHeaderCompleteCb k.method k.major k.minor g))) := by
  rintro ⟨p, f, g', t, m⟩ ⟨hr, hp, hf, hg⟩
  obtain rfl : t = _ := hr
  obtain rfl : f = none := hf
  obtain rfl : g' = g := hg
  have hc := hp.counted hn
  have hlength : p.counted.contentLength = ullongMax := by
    rw [hc.knows.contentLength, hk]
    rfl
  have hdone : ∃ q, HttpParser.headersDone
      { p.counted with state := .headersDone, upgrade := false } LF =
        (q, [.notify .messageComplete]) ∧ Behind q := by
    simp only [HttpParser.headersDone, hlength, hc.knows.chunked, hc.knows.encoding,
      Bool.false_eq_true, false_and, if_false, not_true_eq_false, ne_eq, or_true, if_true]
    exact ⟨_, rfl, ⟨hc.calm.inLoop, hc.calm.fast⟩, rfl⟩
  obtain ⟨q, hq, hbehind⟩ := hdone
  rw [run_cons, run_nil]
  simp only [byte, step_sectionEnd hp hn hconnect, hq, acts, act, advance]
  exact ⟨rfl, hbehind, rfl, rfl⟩

/-- Behind the section lies the body. -/
theorem reads_sectionEnd_some (hk : k.length = some len) (hpos : 0 < len) (hlen : len < ullongMax)
    (hn : n < maxHeaderSize.toNat) (hconnect : k.method ≠ .connect) :
    Triple machine requestSettings (At (HttpParser.Idle .headersAlmostDone k n) none g) [LF]
      (At (InBody len) none (onRequestHeaderCompleteCb k.method k.major k.minor g)) := by
  rintro ⟨p, f, g', t, m⟩ ⟨hr, hp, hf, hg⟩
  obtain rfl : t = _ := hr
  obtain rfl : f = none := hf
  obtain rfl : g' = g := hg
  have hc := hp.counted hn
  have hlength : p.counted.contentLength = len := by
    rw [hc.knows.contentLength, hk]
    rfl
  have hmore : ¬(len = 0 ∨ len = ullongMax) := by omega
  have hdone : ∃ q, HttpParser.headersDone
      { p.counted with state := .headersDone, upgrade := false } LF = (q, []) ∧
        InBody len q := by
    simp only [HttpParser.headersDone, hlength, hc.knows.chunked, hc.knows.encoding,
      Bool.false_eq_true, false_and, if_false, not_true_eq_false, ne_eq, hmore]
    exact ⟨_, rfl, rfl, ⟨hc.calm.inLoop, hc.calm.fast⟩, rfl, rfl⟩
  obtain ⟨q, hq, hbody⟩ := hdone
  rw [run_cons, run_nil]
  simp only [byte, step_sectionEnd hp hn hconnect, hq, acts, act, advance]
  exact ⟨rfl, hbody, rfl, rfl⟩

/-- A part of the body that is not all of it. -/
theorem reads_body {bs : Bytes} (hlen : bs.length < len) :
    Triple machine requestSettings (At (InBody len) none g) bs
      (At (InBody (len - bs.length)) (opened .body bs) g) := by
  refine At.marks (I := fun done => InBody (len - done.length)) ?_
  intro done b hb p hp
  have hle := hb.length_le
  rw [List.length_append, List.length_singleton] at hle ⊢
  have hmore : len - done.length - 1 ≠ 0 := by omega
  refine ⟨{ p with contentLength := len - done.length - 1 }, ?_, hp.state,
    ⟨hp.calm.inLoop, hp.calm.fast⟩, Nat.sub_sub _ _ _, hp.upgrade⟩
  show HttpParser.step p b = _
  simp only [HttpParser.step, hp.state, HttpParser.parsingHeader, Bool.false_eq_true, if_false,
    HttpParser.dispatch, HttpParser.bodyIdentity, hp.contentLength, hmore]

/-- The last byte of the body ends the message. -/
theorem reads_bodyEnd (bs : Bytes) (b : UInt8) :
    Triple machine requestSettings (At (InBody 1) (opened .body bs) g) [b]
      (At Behind none (onRequestMessageCompleteCb (onRequestBodyCb (bs ++ [b]) g))) := by
  refine At.last (n := Notice.messageComplete) rfl ?_
  intro p hp
  refine ⟨{ p with contentLength := 0, state := { p with contentLength := 0 }.newMessage }, ?_,
    ⟨hp.calm.inLoop, hp.calm.fast⟩, hp.upgrade⟩
  show HttpParser.step p b = _
  simp only [HttpParser.step, hp.state, HttpParser.parsingHeader, Bool.false_eq_true, if_false,
    HttpParser.dispatch, HttpParser.bodyIdentity, hp.contentLength, HttpParser.messageDone,
    hp.upgrade, if_true, Nat.sub_self]
  rfl

end Ends

namespace WireRequest.Sendable
variable {r : WireRequest} (h : r.Sendable)
include h

/-- The header section of a request without a body is all of it. -/
theorem standing_head_none (hbody : r.body = []) :
    At Behind none r.wholeData (standing r.head) := by
  obtain ⟨n, hn, hlast⟩ := h.standing_dropLast
  have hhead := h.head
  have hend := reads_sectionEnd_none (k := r.knownLength) (g := r.headersData)
    (by rw [WireRequest.knownLength, if_pos hbody]) (by omega : n < maxHeaderSize.toNat) h.connect
  rw [WireRequest.wholeData, if_pos hbody]
  rw [r.head_eq, standing_append]
  exact hend _ hlast

/-- The header section, and a part of the body that is not all of it. -/
theorem standing_head_body {b : Bytes} (hb : b.length < r.body.length) :
    At (InBody (r.body.length - b.length)) (opened .body b) r.headData
      (standing (r.head ++ b)) := by
  have hbody : r.body ≠ [] := by
    intro hnil
    rw [hnil] at hb
    exact Nat.not_lt_zero _ hb
  obtain ⟨n, hn, hlast⟩ := h.standing_dropLast
  have hhead := h.head
  have hlen := h.body
  have hmax : ullongMax = 2 ^ 64 - 1 := rfl
  have hend := reads_sectionEnd_some (k := r.knownLength) (g := r.headersData)
    (show r.knownLength.length = some r.body.length by rw [WireRequest.knownLength, if_neg hbody])
    (by omega) (by omega) (by omega : n < maxHeaderSize.toNat) h.connect
  rw [r.head_eq, standing_append, standing_append]
  exact reads_body hb _ (hend _ hlast)

/-- The whole request. -/
theorem standing_dump : At Behind none r.wholeData (standing (r.head ++ r.body)) := by
  by_cases hbody : r.body = []
  · rw [hbody, List.append_nil]
    exact h.standing_head_none hbody
  · have hlast : r.body = r.body.dropLast ++ [r.body.getLast hbody] :=
      (List.dropLast_append_getLast hbody).symm
    have hlen : r.body.dropLast.length + 1 = r.body.length := by
      rw [List.length_dropLast]
      have hpos := List.length_pos_iff.mpr hbody
      omega
    have hmost := h.standing_head_body (b := r.body.dropLast) (by omega)
    rw [show r.body.length - r.body.dropLast.length = 1 by omega] at hmost
    have hend := reads_bodyEnd r.body.dropLast (r.body.getLast hbody) _ hmost
    rw [← hlast] at hend
    rw [WireRequest.wholeData, if_neg hbody]
    have happend : r.head ++ r.body =
        r.head ++ r.body.dropLast ++ [r.body.getLast hbody] := by
      rw [List.append_assoc, ← hlast]
    rw [happend, standing_append]
    exact hend

theorem dump_ne_nil : r.dump ≠ [] := by
  rw [dump_eq_head h.websocket, r.head_eq]
  exact List.append_ne_nil_of_left_ne_nil (List.append_ne_nil_of_right_ne_nil _
    (List.cons_ne_nil _ _)) _

/-- What `execute` makes of a dumped request. -/
theorem parser_dump : (HttpRequestParser.new.executeAll [r.dump]).parser =
    ⟨(standing r.dump).ctrl, r.wholeData, none⟩ := by
  have hstand := h.standing_dump
  rw [← dump_eq_head h.websocket] at hstand
  have hleave : machine.leave (standing r.dump).ctrl = .ok (standing r.dump).ctrl := by
    simp [machine, HttpParser.leave, hstand.ctrl.calm.inLoop]
  rw [HttpRequestParser.parser_executeAll_whole h.dump_ne_nil]
  simp only [finish, hstand.running, hleave, hstand.frag, hstand.client]

/-- The parser takes a dumped request as one complete request. -/
theorem completeRequest : CompleteRequest r.dump := by
  refine completeRequest_of_dropLast (by rw [h.parser_dump]) ?_ ?_
  · rw [HttpRequestParser.isFinish, h.parser_dump]
    rfl
  · rw [dump_eq_head h.websocket]
    by_cases hbody : r.body = []
    · obtain ⟨n, -, hlast⟩ := h.standing_dropLast
      rw [hbody, List.append_nil, hlast.client]
      exact (onHeaders_data r.lineData r.arriving).2
    · have hmost := h.standing_head_body (b := r.body.dropLast) (by
        rw [List.length_dropLast]
        have hpos := List.length_pos_iff.mpr hbody
        omega)
      rw [List.dropLast_append_of_ne_nil hbody, hmost.client]
      exact r.headData_finished

theorem requestOf_dump : requestOf r.dump = r.wholeData.data.init := by
  rw [requestOf, HttpRequestParser.getData, h.parser_dump]

end WireRequest.Sendable

/-! ### What arrives -/

namespace MapType

theorem find_congr {k k' : Bytes} (h : caseKey k = caseKey k') (m : MapType) :
    find k m = find k' m := by
  induction m with
  | nil => rfl
  | cons p m ih =>
      by_cases hp : caseKey p.1 = caseKey k
      · rw [find_cons_of_eq hp, find_cons_of_eq (hp.trans h)]
      · rw [find_cons_of_ne hp, find_cons_of_ne (h ▸ hp), ih]

theorem find_set_of_ne {key val k : Bytes} (h : caseKey key ≠ caseKey k) (m : MapType) :
    find k (m.set key val) = find k m := by
  induction m with
  | nil => exact find_cons_of_ne h
  | cons p m ih =>
      obtain ⟨k', v⟩ := p
      rw [set]
      split_ifs with hless hgreater
      · by_cases hk : caseKey k' = caseKey k
        · rw [find_cons_of_eq hk, find_cons_of_eq hk]
        · rw [find_cons_of_ne hk, find_cons_of_ne hk, ih]
      · exact find_cons_of_ne h
      · have heq : caseKey k' = caseKey key := by
          rcases less_cases k' key with ⟨hl, -⟩ | ⟨-, hl, -⟩ | ⟨-, -, heq⟩
          · exact absurd hl hless
          · exact absurd hl hgreater
          · exact heq
        rw [find_cons_of_ne (heq ▸ h), find_cons_of_ne (heq ▸ h)]

theorem find_append (k : Bytes) (m m' : MapType) :
    find k (m ++ m') = (find k m).or (find k m') := by
  induction m with
  | nil => rfl
  | cons p m ih =>
      by_cases hp : caseKey p.1 = caseKey k
      · rw [List.cons_append, find_cons_of_eq hp, find_cons_of_eq hp]
        rfl
      · rw [List.cons_append, find_cons_of_ne hp, find_cons_of_ne hp, ih]

/-- Headers with different names that are set one after another are all found. -/
theorem find_foldl_set {hs : MapType} (h : hs.Pairwise fun a b => caseKey a.1 ≠ caseKey b.1)
    (m : MapType) (k : Bytes) :
    find k (hs.foldl (fun m h => MapType.set h.1 h.2 m) m) = (find k hs).or (find k m) := by
  induction hs generalizing m with
  | nil => rfl
  | cons x hs ih =>
      obtain ⟨hx, hhs⟩ := List.pairwise_cons.mp h
      rw [List.foldl_cons, ih hhs]
      by_cases hk : caseKey x.1 = caseKey k
      · have hnone : find k hs = none := find_eq_none.mpr fun y hy he => hx y hy (hk.trans he.symm)
        rw [hnone, find_cons_of_eq hk, ← find_congr hk, find_set]
        rfl
      · rw [find_set_of_ne hk, find_cons_of_ne hk]

theorem find_filter {keep : Bytes × Bytes → Bool} {k : Bytes}
    (h : ∀ x : Bytes × Bytes, caseKey x.1 = caseKey k → keep x = true) (m : MapType) :
    find k (m.filter keep) = find k m := by
  induction m with
  | nil => rfl
  | cons x m ih =>
      rw [List.filter_cons]
      by_cases hk : caseKey x.1 = caseKey k
      · rw [if_pos (h x hk), find_cons_of_eq hk, find_cons_of_eq hk]
      · rw [find_cons_of_ne hk]
        split_ifs
        · rw [find_cons_of_ne hk, ih]
        · exact ih

end MapType

/-- `req` is `r` as it arrives: the fields that `dump` generates are among the headers. -/
structure Received (r : WireRequest) (req : HttpRequest) : Prop where
  method : req.method = r.method
  version : req.version = r.version
  close : req.close = r.close
  path : req.path = r.path
  query : req.query = r.query
  fragment : req.fragment = r.fragment
  body : req.body = r.body
  headers : ∀ key, req.headers.find key =
    if isConnection key then some (closeText r.close)
    else if r.body ≠ [] ∧ caseKey key = bytes "content-length" then some (decimal r.body.length)
    else r.headers.find key

namespace WireRequest.Sendable
variable {r : WireRequest} (h : r.Sendable)
include h

theorem arriving_pairwise :
    r.arriving.Pairwise fun a b => caseKey a.1 ≠ caseKey b.1 := by
  have hkept : ∀ x ∈ r.headers.filter fun x => !isConnection x.1,
      ¬isConnection x.1 = true ∧ caseKey x.1 ≠ bytes "content-length" := by
    intro x hx
    obtain ⟨hmem, hconn⟩ := List.mem_filter.mp hx
    have hconn' : ¬isConnection x.1 = true := by simpa using hconn
    exact ⟨hconn', (h.headers x hmem hconn').1.length⟩
  have hfilter : (r.headers.filter fun x => !isConnection x.1).Pairwise
      fun a b => caseKey a.1 ≠ caseKey b.1 := by
    refine (h.ordered.imp ?_).filter _
    intro a b hlt he
    rw [he] at hlt
    exact List.lt_irrefl _ hlt
  rw [WireRequest.arriving, WireRequest.sent, List.cons_append, List.pairwise_cons,
    List.pairwise_append]
  refine ⟨?_, hfilter, ?_, ?_⟩
  · intro x hx he
    rcases List.mem_append.mp hx with hx | hx
    · exact (hkept x hx).1 (decide_eq_true he.symm)
    · split_ifs at hx
      · cases hx
      · obtain rfl := List.mem_singleton.mp hx
        exact absurd he (by decide :
          caseKey (bytes "connection") ≠ caseKey (bytes "content-length"))
  · split_ifs
    · exact List.Pairwise.nil
    · exact List.pairwise_singleton _ _
  · intro x hx y hy
    split_ifs at hy
    · cases hy
    · obtain rfl := List.mem_singleton.mp hy
      intro he
      have hlength : caseKey (bytes "content-length") = bytes "content-length" := by decide
      exact (hkept x hx).2 (he.trans hlength)

/-- What is found among the headers that arrive. -/
theorem find_arriving (key : Bytes) :
    r.arrivingMap.find key =
      if isConnection key then some (closeText r.close)
      else if r.body ≠ [] ∧ caseKey key = bytes "content-length" then
        some (decimal r.body.length)
      else r.headers.find key := by
  have hlength : caseKey (bytes "content-length") = bytes "content-length" := by decide
  rw [WireRequest.arrivingMap, MapType.find_foldl_set h.arriving_pairwise, MapType.find,
    Option.or_none, WireRequest.arriving, WireRequest.sent, List.cons_append]
  by_cases hconn : isConnection key = true
  · have hkey : caseKey (bytes "connection") = caseKey key := (decide_eq_true_iff.mp hconn).symm
    rw [MapType.find_cons_of_eq hkey, if_pos hconn]
  · have hkey : caseKey (bytes "connection") ≠ caseKey key := fun he =>
      hconn (decide_eq_true he.symm)
    have hfilter : MapType.find key (r.headers.filter fun x => !isConnection x.1) =
        r.headers.find key := by
      apply MapType.find_filter
      intro x hx
      rw [isConnection, hx]
      simpa [isConnection] using hconn
    rw [MapType.find_cons_of_ne hkey, MapType.find_append, hfilter, if_neg hconn]
    by_cases hlen : r.body ≠ [] ∧ caseKey key = bytes "content-length"
    · have hnone : r.headers.find key = none := by
        apply MapType.find_eq_none.mpr
        intro x hx he
        have hconn' : ¬isConnection x.1 = true := by
          rw [isConnection, he]
          simpa [isConnection] using hconn
        exact (h.headers x hx hconn').1.length (he.trans hlen.2)
      rw [if_pos hlen, hnone, if_neg hlen.1, MapType.find_cons_of_eq (hlength.trans hlen.2.symm)]
      rfl
    · rw [if_neg hlen]
      by_cases hbody : r.body = []
      · rw [if_pos hbody]
        exact Option.or_none
      · have hne : caseKey (bytes "content-length") ≠ caseKey key := fun he =>
          hlen ⟨hbody, he.symm.trans hlength⟩
        rw [if_neg hbody, MapType.find_cons_of_ne hne]
        exact Option.or_none

/-- A dumped request arrives as it was. -/
theorem received : Received r (requestOf r.dump) := by
  have hdata := (onHeaders_data r.lineData r.arriving).1
  have hversion : UInt8.ofNat ((r.version >>> 4).toNat <<< 4 ||| (r.version &&& 0x0f).toNat) =
      r.version := by
    generalize r.version = v
    revert v
    exact UrlCoding.forall_byte (by decide +kernel)
  have hwhole : r.wholeData.data = { (r.lineData.data) with
      method := r.method
      version := r.version
      body := r.body
      headers := r.arrivingMap } := by
    rw [WireRequest.wholeData]
    split_ifs with hbody
    · rw [onRequestMessageCompleteCb, WireRequest.headData, onRequestHeaderCompleteCb,
        WireRequest.headersData, hdata, hversion, hbody]
      rfl
    · rw [onRequestMessageCompleteCb, onRequestBodyCb, WireRequest.headData,
        onRequestHeaderCompleteCb, WireRequest.headersData, hdata, hversion]
      rfl
  have hconn : r.wholeData.data.getHeader (bytes "connection") = closeText r.close := by
    rw [hwhole, HttpRequest.getHeader, h.find_arriving, if_pos (by decide)]
    rfl
  have hinit : r.wholeData.data.init = { r.wholeData.data with close := r.close } := by
    rw [HttpRequest.init, hconn]
    cases r.close
    · rfl
    · rfl
  rw [h.requestOf_dump, hinit, hwhole]
  exact ⟨rfl, rfl, rfl, rfl, rfl, rfl, rfl, h.find_arriving⟩

/-- A cut behind the header section does not show. -/
theorem cutsOk {b : Bytes} {bs : List Bytes} (hbody : b ++ bs.flatten = r.body)
    (hne : ∀ x ∈ bs, x ≠ []) : CutsOk ((r.head ++ b) :: bs) := by
  intro xs ys hx hy hcut
  obtain ⟨x, xs, rfl⟩ := List.exists_cons_of_ne_nil hx
  obtain ⟨rfl, rfl⟩ := List.cons.inj hcut
  obtain ⟨y, ys, rfl⟩ := List.exists_cons_of_ne_nil hy
  have hpos := List.length_pos_iff.mpr (hne y (List.mem_append_right _ List.mem_cons_self))
  have hlen : (b ++ xs.flatten).length < r.body.length := by
    rw [← hbody, show xs.append (y :: ys) = xs ++ y :: ys from rfl, List.flatten_append,
      List.flatten_cons]
    simp only [List.length_append]
    omega
  have hstand := h.standing_head_body hlen
  rw [List.flatten_cons, List.append_assoc, cutOk, hstand.running, hstand.frag]
  by_cases hnil : b ++ xs.flatten = []
  · rw [opened, if_pos hnil]
  · rw [opened, if_neg hnil]
    dsimp only
    rw [hstand.ctrl.state]
    rfl

end WireRequest.Sendable

/-! ### A session -/

/-- Requests on their way to `s`, each with its header section and maybe a part of its body in the
first read and the rest of the body cut in any way. -/
inductive Arriving (buffSize : ℕ) : Socket → List WireRequest → Prop
  | none (s : Socket) : Arriving buffSize s []
  | more {s : Socket} {r : WireRequest} {rs : List WireRequest} {n : ℕ} (b : Bytes)
      (bs : List Bytes) (sendable : r.Sendable)
      (reads : (s.reads buffSize n).1 = (r.head ++ b) :: bs)
      (body : b ++ bs.flatten = r.body) (nonempty : ∀ x ∈ bs, x ≠ [])
      (next : Arriving buffSize (s.reads buffSize n).2 rs) : Arriving buffSize s (r :: rs)

/-- The next call takes the first of them. -/
theorem Arriving.recvRequest {buffSize : ℕ} {s : Socket} {r : WireRequest} {rs : List WireRequest}
    (h : Arriving buffSize s (r :: rs)) :
    ∃ req s', HttpSession.recvRequest buffSize s = (some req, s') ∧ Received r req ∧
      Arriving buffSize s' rs := by
  cases h with
  | @more _ _ _ n b bs hr hreads hbody hne hnext =>
      have hdelivers : s.Delivers buffSize r.dump n := by
        refine ⟨?_, ?_⟩
        · intro x hx
          rw [hreads] at hx
          rcases List.mem_cons.mp hx with rfl | hx
          · rw [r.head_eq]
            exact List.append_ne_nil_of_left_ne_nil (List.append_ne_nil_of_right_ne_nil _
              (List.cons_ne_nil _ _)) _
          · exact hne x hx
        · rw [hreads, List.flatten_cons, List.append_assoc, hbody,
            WireRequest.dump_eq_head hr.websocket]
      have hone := HttpSession.recvRequest_of_delivers hr.completeRequest hdelivers
        (by rw [hreads]; exact hr.cutsOk hbody hne)
      exact ⟨_, _, hone, hr.received, hnext⟩

/-- A session receives the requests that were dumped, in their order. -/
theorem recvRequests_dump {buffSize : ℕ} {s : Socket} {rs : List WireRequest}
    (h : Arriving buffSize s rs) :
    List.Forall₂ Received rs (HttpSession.recvRequests buffSize rs.length s).1 := by
  induction rs generalizing s with
  | nil => exact List.Forall₂.nil
  | cons r rs ih =>
      obtain ⟨req, s', hone, hreceived, hnext⟩ := h.recvRequest
      rw [List.length_cons, HttpSession.recvRequests, hone]
      exact List.Forall₂.cons hreceived (ih hnext)

/-- A request without and one with a body, the body in two segments. -/
def getIndex : WireRequest where
  method := .get
  path := bytes "/index"
  query := bytes "a=1"
  close := false
  headers := [(bytes "Host", bytes "localhost")]

def postForm : WireRequest where
  method := .post
  path := bytes "/form"
  body := bytes "name=x"

theorem arriving_two : Arriving 4096
    ⟨[getIndex.head, postForm.head ++ bytes "na", bytes "me=x"], true⟩ [getIndex, postForm] := by
  have hget : getIndex.Sendable := by
    refine ⟨rfl, by decide, by decide, by decide, by decide, ⟨by decide, by decide +kernel,
      by decide +kernel, by decide, by decide +kernel, by decide +kernel⟩, by decide +kernel, ?_,
      by decide, by decide +kernel⟩
    intro x hx _
    obtain rfl := List.mem_singleton.mp hx
    exact ⟨⟨⟨by decide, by decide +kernel⟩, by decide +kernel, by decide +kernel, by decide⟩,
      ⟨by decide +kernel, by decide +kernel⟩⟩
  have hpost : postForm.Sendable := by
    refine ⟨rfl, by decide, by decide, by decide, by decide, ⟨by decide, by decide +kernel,
      by decide +kernel, by decide, by decide +kernel, by decide +kernel⟩, by decide +kernel, ?_,
      by decide, by decide +kernel⟩
    intro x hx _
    cases hx
  refine .more (n := 1) [] [] hget ?_ rfl ?_
    (.more (n := 2) (bytes "na") [bytes "me=x"] hpost ?_ ?_ ?_ (.none _))
  · decide +kernel
  · decide
  · decide +kernel
  · decide +kernel
  · decide +kernel

theorem recvRequests_dump_two :
    List.Forall₂ Received [getIndex, postForm] (HttpSession.recvRequests 4096 2
      ⟨[getIndex.head, postForm.head ++ bytes "na", bytes "me=x"], true⟩).1 :=
  recvRequests_dump arriving_two

end Xzmjx.HttpRequestModel
