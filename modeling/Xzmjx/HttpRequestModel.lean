import Xzmjx.HttpParserModel

/-!
# HttpRequestParser and HttpSession

The callbacks that fill an `HttpRequest`, `HttpRequestParser::execute`, and
`HttpSession::recvRequest` reading from a socket. The socket is the list of
segments that have arrived: one read delivers bytes of the first segment only.
-/
namespace Xzmjx.HttpRequestModel
open HttpParserModel

abbrev Bytes := List UInt8

/-! ### Headers -/

def tolower (c : UInt8) : UInt8 := if 'A'.toUInt8 ≤ c ∧ c ≤ 'Z'.toUInt8 then c + 32 else c

/-- What `strcasecmp` compares of a string. -/
def caseKey (s : Bytes) : Bytes := (s.takeWhile (· ≠ 0)).map tolower

def caseInsensitiveLess (a b : Bytes) : Bool := caseKey a < caseKey b

/-- `std::map<std::string, std::string, CaseInsensitiveLess>`, in its order. -/
abbrev MapType := List (Bytes × Bytes)

def MapType.find (key : Bytes) : MapType → Option Bytes
  | [] => none
  | (k, v) :: m =>
      if caseInsensitiveLess k key ∨ caseInsensitiveLess key k then MapType.find key m else some v

/-- `m[key] = val`: an equivalent key keeps its spelling. -/
def MapType.set (key val : Bytes) : MapType → MapType
  | [] => [(key, val)]
  | (k, v) :: m =>
      if caseInsensitiveLess k key then (k, v) :: MapType.set key val m
      else if caseInsensitiveLess key k then (key, val) :: (k, v) :: m
      else (k, val) :: m

/-! ### HttpRequest -/

structure HttpRequest where
  method : HttpMethod := .get
  version : UInt8 := 0x11
  close : Bool := true
  path : Bytes := bytes "/"
  query : Bytes := []
  fragment : Bytes := []
  body : Bytes := []
  headers : MapType := []
  deriving DecidableEq, Repr

def HttpRequest.setHeader (r : HttpRequest) (key val : Bytes) : HttpRequest :=
  { r with headers := r.headers.set key val }

def HttpRequest.getHeader (r : HttpRequest) (key : Bytes) : Bytes :=
  (r.headers.find key).getD []

/-- `HttpRequest::init`. -/
def HttpRequest.init (r : HttpRequest) : HttpRequest :=
  let conn := r.getHeader (bytes "connection")
  if conn = [] then r
  else { r with close := decide (caseKey conn ≠ caseKey (bytes "keep-alive")) }

/-! ### HttpRequestParser -/

/-- What the callbacks reach through `p->data`. -/
structure RequestData where
  data : HttpRequest := {}
  field : Bytes := []
  finished : Bool := false
  deriving DecidableEq, Repr

def onRequestUrlCb (buf : Bytes) (g : RequestData) : Except HttpErrno RequestData :=
  match httpParserParseUrl buf with
  | none => .error .cbUrl
  | some u =>
      let part (f : UrlField) (old : Bytes) := ((u f).map fun d => d.text buf).getD old
      .ok { g with
        data := { g.data with
          path := part .path g.data.path
          query := part .query g.data.query
          fragment := part .fragment g.data.fragment } }

def onRequestHeaderFieldCb (at_ : Bytes) (g : RequestData) : RequestData :=
  { g with field := at_ }

def onRequestHeaderValueCb (at_ : Bytes) (g : RequestData) : RequestData :=
  { g with data := g.data.setHeader g.field at_ }

def onRequestBodyCb (at_ : Bytes) (g : RequestData) : RequestData :=
  { g with data := { g.data with body := g.data.body ++ at_ } }

def onRequestHeaderCompleteCb (method : HttpMethod) (major minor : ℕ) (g : RequestData) :
    RequestData :=
  { g with
    data := { g.data with version := UInt8.ofNat (major <<< 4 ||| minor), method := method } }

def onRequestMessageCompleteCb (g : RequestData) : RequestData := { g with finished := true }

/-- `s_request_settings`. -/
def requestSettings : PushParser.Client UInt8 Element Notice HttpErrno RequestData where
  data
    | .url, buf, g => onRequestUrlCb buf g
    | .headerField, buf, g => .ok (onRequestHeaderFieldCb buf g)
    | .headerValue, buf, g => .ok (onRequestHeaderValueCb buf g)
    | .body, buf, g => .ok (onRequestBodyCb buf g)
  notify
    | .messageBegin, g => g
    | .headersComplete m major minor, g => onRequestHeaderCompleteCb m major minor g
    | .messageComplete, g => onRequestMessageCompleteCb g
    | .chunkHeader, g => g
    | .chunkComplete, g => g

structure HttpRequestParser where
  parser : PushParser.Parser HttpParser HttpErrno RequestData
  error : Option HttpErrno
  deriving DecidableEq, Repr

namespace HttpRequestParser

def new : HttpRequestParser := ⟨⟨HttpParser.init, {}, none⟩, none⟩

def hasError (h : HttpRequestParser) : Bool := h.error.isSome
def isFinish (h : HttpRequestParser) : Bool := h.parser.client.finished
def getData (h : HttpRequestParser) : HttpRequest := h.parser.client.data

/-- `HttpRequestParser::execute`: the parser, the buffer afterwards and the bytes parsed. -/
def execute (h : HttpRequestParser) (data : Bytes) : HttpRequestParser × Bytes × ℕ :=
  let (p, n) := httpParserExecute requestSettings h.parser data
  if p.ctrl.upgrade then (⟨p, h.error⟩, data, n)
  else
    match p.errno with
    | some e => (⟨p, some e⟩, data, n)
    | none =>
        if n < data.length then
          (⟨p, h.error⟩, data.drop n ++ data.drop (data.length - n), n)
        else (⟨p, h.error⟩, List.replicate data.length 0, n)

/-- Chunks executed one after another. -/
def executeAll (h : HttpRequestParser) (chunks : List Bytes) : HttpRequestParser :=
  chunks.foldl (fun h data => (h.execute data).1) h

end HttpRequestParser

/-! ### HttpSession -/

structure Socket where
  incoming : List Bytes
  connected : Bool := true
  deriving DecidableEq, Repr

/-- `SocketStream::read`; no bytes stand for a result that is not positive. -/
def Socket.read (s : Socket) (length : ℕ) : Bytes × Socket :=
  if ¬s.connected then ([], s)
  else
    match s.incoming with
    | [] => ([], s)
    | x :: xs =>
        (x.take length,
          { s with incoming := if x.drop length = [] then xs else x.drop length :: xs })

def Socket.close (s : Socket) : Socket := { s with connected := false }

namespace HttpSession

/-- The loop of `HttpSession::recvRequest`; `held` is the data the buffer has, `offset` bytes. -/
def recvLoop (buffSize : ℕ) : ℕ → HttpRequestParser → Bytes → Socket →
    Option HttpRequest × Socket
  | 0, _, _, s => (none, s)
  | fuel + 1, parser, held, s =>
      let (got, s) := s.read (buffSize - held.length)
      if got = [] then (none, s.close)
      else
        let (parser, buf, n) := parser.execute (held ++ got)
        if parser.hasError then (none, s.close)
        else
          let offset := (held ++ got).length - n
          if buffSize ≤ offset then (none, s.close)
          else if parser.isFinish then (some parser.getData.init, s)
          else recvLoop buffSize fuel parser (buf.take offset) s

/-- `HttpSession::recvRequest`. Every round of its loop takes a byte from the socket. -/
def recvRequest (buffSize : ℕ) (s : Socket) : Option HttpRequest × Socket :=
  recvLoop buffSize (s.incoming.flatten.length + 1) .new [] s

/-- Successive requests of one session, as `HttpServer::handleClient` receives them. -/
def recvRequests (buffSize : ℕ) : ℕ → Socket → List HttpRequest × Socket
  | 0, s => ([], s)
  | n + 1, s =>
      match recvRequest buffSize s with
      | (none, s) => ([], s)
      | (some r, s) =>
          let (rs, s) := recvRequests buffSize n s
          (r :: rs, s)

end HttpSession

end Xzmjx.HttpRequestModel
