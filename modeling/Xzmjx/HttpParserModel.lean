import Mathlib.Algebra.Group.Nat.Defs
import Xzmjx.PushParser
import Xzmjx.HttpParserUrl

/-!
# The request half of http_parser

`http_parser_execute` for a parser of type `HTTP_REQUEST` in strict mode, byte by
byte. The loops over header fields, header values and bodies of the source are
unrolled to one step for each byte; what these loops keep in local variables is
kept in `inLoop` and `fast`. A `REEXECUTE()` is a call of the next state's
function. `lenient_http_headers` and `allow_chunked_length` are zero, and
`F_SKIPBODY` is never set since no callback asks for it.
-/
namespace Xzmjx.HttpParserModel

inductive HttpMethod
  | delete | get | head | post | put | connect | options | trace | copy | lock | mkcol | move
  | propfind | proppatch | search | unlock | bind | rebind | unbind | acl | report | mkactivity
  | checkout | merge | msearch | notify | subscribe | unsubscribe | patch | purge | mkcalendar
  | link | unlink | source
  deriving DecidableEq, Repr

/-- `method_strings`, with the blanks that the table of the source has around the dash. -/
def HttpMethod.text : HttpMethod → List UInt8
  | .delete => bytes "DELETE"
  | .get => bytes "GET"
  | .head => bytes "HEAD"
  | .post => bytes "POST"
  | .put => bytes "PUT"
  | .connect => bytes "CONNECT"
  | .options => bytes "OPTIONS"
  | .trace => bytes "TRACE"
  | .copy => bytes "COPY"
  | .lock => bytes "LOCK"
  | .mkcol => bytes "MKCOL"
  | .move => bytes "MOVE"
  | .propfind => bytes "PROPFIND"
  | .proppatch => bytes "PROPPATCH"
  | .search => bytes "SEARCH"
  | .unlock => bytes "UNLOCK"
  | .bind => bytes "BIND"
  | .rebind => bytes "REBIND"
  | .unbind => bytes "UNBIND"
  | .acl => bytes "ACL"
  | .report => bytes "REPORT"
  | .mkactivity => bytes "MKACTIVITY"
  | .checkout => bytes "CHECKOUT"
  | .merge => bytes "MERGE"
  | .msearch => bytes "M - SEARCH"
  | .notify => bytes "NOTIFY"
  | .subscribe => bytes "SUBSCRIBE"
  | .unsubscribe => bytes "UNSUBSCRIBE"
  | .patch => bytes "PATCH"
  | .purge => bytes "PURGE"
  | .mkcalendar => bytes "MKCALENDAR"
  | .link => bytes "LINK"
  | .unlink => bytes "UNLINK"
  | .source => bytes "SOURCE"

/-- The method guessed from the first letter. -/
def HttpMethod.ofFirst (ch : UInt8) : Option HttpMethod :=
  if ch = 'A'.toUInt8 then some .acl
  else if ch = 'B'.toUInt8 then some .bind
  else if ch = 'C'.toUInt8 then some .connect
  else if ch = 'D'.toUInt8 then some .delete
  else if ch = 'G'.toUInt8 then some .get
  else if ch = 'H'.toUInt8 then some .head
  else if ch = 'L'.toUInt8 then some .lock
  else if ch = 'M'.toUInt8 then some .mkcol
  else if ch = 'N'.toUInt8 then some .notify
  else if ch = 'O'.toUInt8 then some .options
  else if ch = 'P'.toUInt8 then some .post
  else if ch = 'R'.toUInt8 then some .report
  else if ch = 'S'.toUInt8 then some .subscribe
  else if ch = 'T'.toUInt8 then some .trace
  else if ch = 'U'.toUInt8 then some .unlock
  else none

/-- The switch over `method << 16 | index << 8 | ch`. -/
def HttpMethod.switches : List (HttpMethod × ℕ × Char × HttpMethod) :=
  [(.post, 1, 'U', .put), (.post, 1, 'A', .patch), (.post, 1, 'R', .propfind),
   (.put, 2, 'R', .purge), (.connect, 1, 'H', .checkout), (.connect, 2, 'P', .copy),
   (.mkcol, 1, 'O', .move), (.mkcol, 1, 'E', .merge), (.mkcol, 1, '-', .msearch),
   (.mkcol, 2, 'A', .mkactivity), (.mkcol, 3, 'A', .mkcalendar), (.subscribe, 1, 'E', .search),
   (.subscribe, 1, 'O', .source), (.report, 2, 'B', .rebind), (.propfind, 4, 'P', .proppatch),
   (.lock, 1, 'I', .link), (.unlock, 2, 'S', .unsubscribe), (.unlock, 2, 'B', .unbind),
   (.unlock, 3, 'I', .unlink)]

def HttpMethod.switch (m : HttpMethod) (index : ℕ) (ch : UInt8) : Option HttpMethod :=
  (switches.find? fun x => x.1 = m ∧ x.2.1 = index ∧ x.2.2.1.toUInt8 = ch).map (·.2.2.2)

inductive HeaderState
  | general
  | c
  | co
  | con
  | matchingConnection
  | matchingProxyConnection
  | matchingContentLength
  | matchingTransferEncoding
  | matchingUpgrade
  | connection
  | contentLength
  | contentLengthNum
  | contentLengthWs
  | transferEncoding
  | upgrade
  | matchingTransferEncodingTokenStart
  | matchingTransferEncodingChunked
  | matchingTransferEncodingToken
  | matchingConnectionTokenStart
  | matchingConnectionKeepAlive
  | matchingConnectionClose
  | matchingConnectionUpgrade
  | matchingConnectionToken
  | transferEncodingChunked
  | connectionKeepAlive
  | connectionClose
  | connectionUpgrade
  deriving DecidableEq, Repr

structure Flags where
  chunked : Bool := false
  connectionKeepAlive : Bool := false
  connectionClose : Bool := false
  connectionUpgrade : Bool := false
  trailing : Bool := false
  upgrade : Bool := false
  contentLength : Bool := false
  deriving DecidableEq, Repr

inductive HttpErrno
  | cbUrl
  | invalidEofState
  | headerOverflow
  | closedConnection
  | invalidVersion
  | invalidMethod
  | invalidUrl
  | lfExpected
  | invalidHeaderToken
  | invalidContentLength
  | unexpectedContentLength
  | invalidChunkSize
  | invalidConstant
  | strict
  | invalidTransferEncoding
  deriving DecidableEq, Repr

/-- The elements with a data callback. -/
inductive Element
  | url
  | headerField
  | headerValue
  | body
  deriving DecidableEq, Repr

/-- The other callbacks, with what they read from the parser. -/
inductive Notice
  | messageBegin
  | headersComplete (method : HttpMethod) (major minor : ℕ)
  | messageComplete
  | chunkHeader
  | chunkComplete
  deriving DecidableEq, Repr

abbrev Act := PushParser.Action Element Notice HttpErrno

def maxHeaderSize : UInt32 := 80 * 1024
def ullongMax : ℕ := 2 ^ 64 - 1

/-- `struct http_parser`. `inLoop` is set inside the loop over a header field or value, and
`fast` counts the bytes of its inner loop over a value that needs no inspection. -/
structure HttpParser where
  state : State
  headerState : HeaderState
  index : ℕ
  flags : Flags
  usesTransferEncoding : Bool
  nread : UInt32
  contentLength : ℕ
  httpMajor : ℕ
  httpMinor : ℕ
  method : HttpMethod
  upgrade : Bool
  inLoop : Bool
  fast : ℕ
  deriving DecidableEq, Repr

/-- `http_parser_init`. -/
def HttpParser.init : HttpParser where
  state := .startReq
  headerState := .general
  index := 0
  flags := {}
  usesTransferEncoding := false
  nread := 0
  contentLength := 0
  httpMajor := 0
  httpMinor := 0
  method := .delete
  upgrade := false
  inLoop := false
  fast := 0

abbrev Step := HttpParser × List Act

namespace HttpParser
variable (p : HttpParser) (ch : UInt8)

def fail (e : HttpErrno) : Step := (p, [.fail e])
def goto (s : State) : Step := ({ p with state := s }, [])

def overflows : Bool := maxHeaderSize < p.nread

/-- `http_should_keep_alive`; a request never needs the end of the stream. -/
def httpShouldKeepAlive : Bool :=
  if 0 < p.httpMajor ∧ 0 < p.httpMinor then !p.flags.connectionClose
  else p.flags.connectionKeepAlive

def newMessage : State := if p.httpShouldKeepAlive then .startReq else .dead

def messageDone : Step :=
  ({ p with state := p.newMessage },
    .notify .messageComplete :: if p.upgrade then [.stop] else [])

def hasBody : Bool := p.flags.chunked || (0 < p.contentLength && p.contentLength ≠ ullongMax)

def headersDone : Step :=
  let p := { p with state := .headersDone, nread := 0 }
  if ch ≠ LF then p.fail .strict
  else if p.upgrade ∧ (p.method = .connect ∨ ¬p.hasBody) then
    ({ p with state := p.newMessage }, [.notify .messageComplete, .stop])
  else if p.flags.chunked then p.goto .chunkSizeStart
  else if p.usesTransferEncoding then p.fail .invalidTransferEncoding
  else if p.contentLength = 0 ∨ p.contentLength = ullongMax then
    ({ p with state := p.newMessage }, [.notify .messageComplete])
  else p.goto .bodyIdentity

def headersAlmostDone : Step :=
  if ch ≠ LF then p.fail .strict
  else if p.flags.trailing then
    let r := messageDone { p with state := .messageDone }
    (r.1, .notify .chunkComplete :: r.2)
  else if p.usesTransferEncoding ∧ p.flags.contentLength then p.fail .unexpectedContentLength
  else
    let p := { p with
      state := .headersDone
      upgrade := (p.flags.upgrade && p.flags.connectionUpgrade) || p.method = HttpMethod.connect }
    let r := p.headersDone ch
    (r.1, .notify (.headersComplete p.method p.httpMajor p.httpMinor) :: r.2)

def headerFieldStart : Step :=
  if ch = CR then p.goto .headersAlmostDone
  else if ch = LF then headersAlmostDone { p with state := .headersAlmostDone } ch
  else
    match token ch with
    | none => p.fail .invalidHeaderToken
    | some c =>
        ({ p with
            index := 0
            state := .headerField
            headerState :=
              if c = 'c'.toUInt8 then .c
              else if c = 'p'.toUInt8 then .matchingProxyConnection
              else if c = 't'.toUInt8 then .matchingTransferEncoding
              else if c = 'u'.toUInt8 then .matchingUpgrade
              else .general },
          [.mark .headerField])

/-- One more character of a name or value that is compared with a constant. -/
def matching (text : String) (c : UInt8) (no yes : HeaderState) : HttpParser :=
  { p with
    index := p.index + 1
    headerState :=
      if (bytes text)[p.index + 1]? ≠ some c then no
      else if p.index + 2 = (bytes text).length then yes
      else p.headerState }

/-- The switch over `header_state` inside a header field. -/
def fieldChar (c : UInt8) : HttpParser :=
  match p.headerState with
  | .general => p
  | .c =>
      { p with
        index := p.index + 1, headerState := if c = 'o'.toUInt8 then .co else .general }
  | .co =>
      { p with
        index := p.index + 1, headerState := if c = 'n'.toUInt8 then .con else .general }
  | .con =>
      { p with
        index := p.index + 1
        headerState :=
          if c = 'n'.toUInt8 then .matchingConnection
          else if c = 't'.toUInt8 then .matchingContentLength
          else .general }
  | .matchingConnection => p.matching "connection" c .general .connection
  | .matchingProxyConnection => p.matching "proxy-connection" c .general .connection
  | .matchingContentLength => p.matching "content-length" c .general .contentLength
  | .matchingTransferEncoding =>
      let q := p.matching "transfer-encoding" c .general .transferEncoding
      if q.headerState = .transferEncoding then { q with usesTransferEncoding := true } else q
  | .matchingUpgrade => p.matching "upgrade" c .general .upgrade
  | .connection => { p with headerState := .general }
  | .contentLength => { p with headerState := .general }
  | .transferEncoding => { p with headerState := .general }
  | .upgrade => { p with headerState := .general }
  | _ => p

def headerField : Step :=
  match token ch with
  | some c => ({ p.fieldChar c with inLoop := true }, [])
  | none =>
      let p := { p with inLoop := false }
      if p.overflows then p.fail .headerOverflow
      else if ch = ':'.toUInt8 then
        ({ p with state := .headerValueDiscardWs }, [.emit .headerField false true])
      else p.fail .invalidHeaderToken

def headerValueStart : Step :=
  let p := { p with state := .headerValue, index := 0 }
  let c := lower ch
  match p.headerState with
  | .upgrade =>
      ({ p with flags := { p.flags with upgrade := true }, headerState := .general },
        [.mark .headerValue])
  | .transferEncoding =>
      ({ p with
          headerState :=
            if c = 'c'.toUInt8 then .matchingTransferEncodingChunked
            else .matchingTransferEncodingToken },
        [.mark .headerValue])
  | .matchingTransferEncodingTokenStart => (p, [.mark .headerValue])
  | .contentLength =>
      if ¬isNum ch then (p, [.mark .headerValue, .fail .invalidContentLength])
      else if p.flags.contentLength then
        (p, [.mark .headerValue, .fail .unexpectedContentLength])
      else
        ({ p with
            flags := { p.flags with contentLength := true }
            contentLength := (ch - '0'.toUInt8).toNat
            headerState := .contentLengthNum },
          [.mark .headerValue])
  | .contentLengthWs => (p, [.mark .headerValue])
  | .connection =>
      ({ p with
          headerState :=
            if c = 'k'.toUInt8 then .matchingConnectionKeepAlive
            else if c = 'c'.toUInt8 then .matchingConnectionClose
            else if c = 'u'.toUInt8 then .matchingConnectionUpgrade
            else .matchingConnectionToken },
        [.mark .headerValue])
  | .matchingConnectionTokenStart => (p, [.mark .headerValue])
  | _ => ({ p with headerState := .general }, [.mark .headerValue])

def headerValueDiscardWs : Step :=
  if ch = ' '.toUInt8 ∨ ch = 9 then (p, [])
  else if ch = CR then p.goto .headerValueDiscardWsAlmostDone
  else if ch = LF then p.goto .headerValueDiscardLws
  else p.headerValueStart ch

/-- The flag a finished header sets. -/
def setHeaderFlag : HttpParser :=
  match p.headerState with
  | .connectionKeepAlive => { p with flags := { p.flags with connectionKeepAlive := true } }
  | .connectionClose => { p with flags := { p.flags with connectionClose := true } }
  | .connectionUpgrade => { p with flags := { p.flags with connectionUpgrade := true } }
  | .transferEncodingChunked => { p with flags := { p.flags with chunked := true } }
  | _ => p

def contentLengthNum : Except HttpErrno HttpParser :=
  if ch = ' '.toUInt8 then .ok { p with headerState := .contentLengthWs }
  else if ¬isNum ch then .error .invalidContentLength
  else if (ullongMax - 10) / 10 < p.contentLength then .error .invalidContentLength
  else .ok { p with
    headerState := .contentLengthNum
    contentLength := p.contentLength * 10 + (ch - '0'.toUInt8).toNat }

/-- A known token of a `Connection` header is complete. -/
def connectionToken : HttpParser :=
  if ch = ','.toUInt8 then
    { p.setHeaderFlag with headerState := .matchingConnectionTokenStart, index := 0 }
  else if ch ≠ ' '.toUInt8 then { p with headerState := .matchingConnectionToken }
  else p

/-- The switch over `h_state` inside a header value. -/
def valueChar : Except HttpErrno HttpParser :=
  let c := lower ch
  match p.headerState with
  | .general => .ok { p with fast := p.fast + 1 }
  | .connection => .ok p
  | .transferEncoding => .ok p
  | .contentLength => if ch = ' '.toUInt8 then .ok p else p.contentLengthNum ch
  | .contentLengthNum => p.contentLengthNum ch
  | .contentLengthWs => if ch = ' '.toUInt8 then .ok p else .error .invalidContentLength
  | .matchingTransferEncodingTokenStart =>
      .ok { p with
        headerState :=
          if c = 'c'.toUInt8 then .matchingTransferEncodingChunked
          else if (token c).isSome then .matchingTransferEncodingToken
          else if c = ' '.toUInt8 ∨ c = 9 then p.headerState
          else .general }
  | .matchingTransferEncodingChunked =>
      .ok (p.matching "chunked" c .matchingTransferEncodingToken .transferEncodingChunked)
  | .matchingTransferEncodingToken =>
      .ok (if ch = ','.toUInt8 then
          { p with headerState := .matchingTransferEncodingTokenStart, index := 0 }
        else p)
  | .matchingConnectionTokenStart =>
      .ok { p with
        headerState :=
          if c = 'k'.toUInt8 then .matchingConnectionKeepAlive
          else if c = 'c'.toUInt8 then .matchingConnectionClose
          else if c = 'u'.toUInt8 then .matchingConnectionUpgrade
          else if (token c).isSome then .matchingConnectionToken
          else if c = ' '.toUInt8 ∨ c = 9 then p.headerState
          else .general }
  | .matchingConnectionKeepAlive =>
      .ok (p.matching "keep-alive" c .matchingConnectionToken .connectionKeepAlive)
  | .matchingConnectionClose =>
      .ok (p.matching "close" c .matchingConnectionToken .connectionClose)
  | .matchingConnectionUpgrade =>
      .ok (p.matching "upgrade" c .matchingConnectionToken .connectionUpgrade)
  | .matchingConnectionToken =>
      .ok (if ch = ','.toUInt8 then
          { p with headerState := .matchingConnectionTokenStart, index := 0 }
        else p)
  | .transferEncodingChunked =>
      .ok (if ch ≠ ' '.toUInt8 then { p with headerState := .matchingTransferEncodingToken }
        else p)
  | .connectionKeepAlive => .ok (p.connectionToken ch)
  | .connectionClose => .ok (p.connectionToken ch)
  | .connectionUpgrade => .ok (p.connectionToken ch)
  | _ => .ok { p with headerState := .general }

def headerAlmostDone : Step :=
  if ch ≠ LF then p.fail .lfExpected else p.goto .headerValueLws

def headerValue : Step :=
  -- a full inner loop leaves `p` on the next byte, which the outer loop then skips
  if p.fast = maxHeaderSize.toNat then ({ p with fast := 0 }, [])
  else if ch = CR then
    ({ p with state := .headerAlmostDone, inLoop := false, fast := 0 },
      .emit .headerValue false true ::
        if p.overflows then [.fail .headerOverflow] else [])
  else if ch = LF then
    let p := { p with state := .headerAlmostDone, inLoop := false, fast := 0 }
    if p.overflows then p.fail .headerOverflow
    else
      let r := p.headerAlmostDone ch
      (r.1, .emit .headerValue false false :: r.2)
  else if ¬isHeaderChar ch then p.fail .invalidHeaderToken
  else
    match p.valueChar ch with
    | .error e => p.fail e
    | .ok q => ({ q with inLoop := true }, [])

def headerValueLws : Step :=
  if ch = ' '.toUInt8 ∨ ch = 9 then
    headerValueStart
      (if p.headerState = .contentLengthNum then { p with headerState := .contentLengthWs }
        else p) ch
  else headerFieldStart { p.setHeaderFlag with state := .headerFieldStart } ch

def headerValueDiscardWsAlmostDone : Step :=
  if ch ≠ LF then p.fail .strict else p.goto .headerValueDiscardLws

def headerValueDiscardLws : Step :=
  if ch = ' '.toUInt8 ∨ ch = 9 then p.goto .headerValueDiscardWs
  else if p.headerState = .contentLength then p.fail .invalidContentLength
  else
    let r := headerFieldStart { p.setHeaderFlag with state := .headerFieldStart } ch
    (r.1, .mark .headerValue :: .emit .headerValue false false :: r.2)

def chunkSizeStart : Step :=
  match unhex ch with
  | none => p.fail .invalidChunkSize
  | some v => ({ p with contentLength := v, state := .chunkSize }, [])

def chunkSize : Step :=
  if ch = CR then p.goto .chunkSizeAlmostDone
  else
    match unhex ch with
    | none =>
        if ch = ';'.toUInt8 ∨ ch = ' '.toUInt8 then p.goto .chunkParameters
        else p.fail .invalidChunkSize
    | some v =>
        if (ullongMax - 16) / 16 < p.contentLength then p.fail .invalidContentLength
        else ({ p with contentLength := p.contentLength * 16 + v }, [])

def chunkParameters : Step :=
  if ch = CR then p.goto .chunkSizeAlmostDone else (p, [])

def chunkSizeAlmostDone : Step :=
  if ch ≠ LF then p.fail .strict
  else if p.contentLength = 0 then
    ({ p with
        nread := 0, flags := { p.flags with trailing := true }, state := .headerFieldStart },
      [.notify .chunkHeader])
  else ({ p with nread := 0, state := .chunkData }, [.notify .chunkHeader])

def chunkData : Step :=
  ({ p with
      contentLength := p.contentLength - 1
      state := if p.contentLength - 1 = 0 then .chunkDataAlmostDone else .chunkData },
    [.mark .body])

def chunkDataAlmostDone : Step :=
  if ch ≠ CR then p.fail .strict
  else ({ p with state := .chunkDataDone }, [.emit .body false true])

def chunkDataDone : Step :=
  if ch ≠ LF then p.fail .strict
  else ({ p with nread := 0, state := .chunkSizeStart }, [.notify .chunkComplete])

def bodyIdentity : Step :=
  let p := { p with contentLength := p.contentLength - 1 }
  if p.contentLength = 0 then
    let r := messageDone { p with state := .messageDone }
    (r.1, .mark .body :: .emit .body true false :: r.2)
  else (p, [.mark .body])

def dead : Step :=
  if ch = CR ∨ ch = LF then (p, []) else p.fail .closedConnection

def startReq : Step :=
  if ch = CR ∨ ch = LF then (p, [])
  else
    let p := { p with flags := {}, usesTransferEncoding := false, contentLength := ullongMax }
    if ¬isAlpha ch then p.fail .invalidMethod
    else
      match HttpMethod.ofFirst ch with
      | none => fail { p with method := .delete, index := 1 } .invalidMethod
      | some m =>
          ({ p with method := m, index := 1, state := .reqMethod }, [.notify .messageBegin])

def reqMethod : Step :=
  if ch = 0 then p.fail .invalidMethod
  else if ch = ' '.toUInt8 ∧ p.index = p.method.text.length then
    ({ p with state := .reqSpacesBeforeUrl, index := p.index + 1 }, [])
  else if p.method.text[p.index]? = some ch then ({ p with index := p.index + 1 }, [])
  else if ('A'.toUInt8 ≤ ch ∧ ch ≤ 'Z'.toUInt8) ∨ ch = '-'.toUInt8 then
    match p.method.switch p.index ch with
    | none => p.fail .invalidMethod
    | some m => ({ p with method := m, index := p.index + 1 }, [])
  else p.fail .invalidMethod

/-- `UPDATE_STATE(parse_url_char(CURRENT_STATE(), ch))` and the test for `s_dead`. -/
def urlChar (marks : List Act) : Step :=
  let s := parseUrlChar p.state ch
  ({ p with state := s }, if s = .dead then marks ++ [.fail .invalidUrl] else marks)

def reqSpacesBeforeUrl : Step :=
  if ch = ' '.toUInt8 then (p, [])
  else
    urlChar (if p.method = .connect then { p with state := .reqServerStart } else p) ch
      [.mark .url]

/-- The URL states in which no whitespace is allowed. -/
def reqUrlStart : Step :=
  if ch = ' '.toUInt8 ∨ ch = CR ∨ ch = LF then p.fail .invalidUrl else p.urlChar ch []

/-- The URL states in which the URL may end. -/
def reqUrl : Step :=
  if ch = ' '.toUInt8 then ({ p with state := .reqHttpStart }, [.emit .url false true])
  else if ch = CR ∨ ch = LF then
    ({ p with
        httpMajor := 0
        httpMinor := 9
        state := if ch = CR then .reqLineAlmostDone else .headerFieldStart },
      [.emit .url false true])
  else p.urlChar ch []

def reqHttpStart : Step :=
  if ch = ' '.toUInt8 then (p, [])
  else if ch = 'H'.toUInt8 then p.goto .reqHttpH
  else if ch = 'I'.toUInt8 ∧ p.method = .source then p.goto .reqHttpI
  else p.fail .invalidConstant

/-- A state that expects one character of a constant. -/
def expect (c : Char) (s : State) : Step :=
  if ch ≠ c.toUInt8 then p.fail .strict else p.goto s

def reqHttpMajor : Step :=
  if ¬isNum ch then p.fail .invalidVersion
  else ({ p with httpMajor := (ch - '0'.toUInt8).toNat, state := .reqHttpDot }, [])

def reqHttpDot : Step :=
  if ch ≠ '.'.toUInt8 then p.fail .invalidVersion else p.goto .reqHttpMinor

def reqHttpMinor : Step :=
  if ¬isNum ch then p.fail .invalidVersion
  else ({ p with httpMinor := (ch - '0'.toUInt8).toNat, state := .reqHttpEnd }, [])

def reqHttpEnd : Step :=
  if ch = CR then p.goto .reqLineAlmostDone
  else if ch = LF then p.goto .headerFieldStart
  else p.fail .invalidVersion

def reqLineAlmostDone : Step :=
  if ch ≠ LF then p.fail .lfExpected else p.goto .headerFieldStart

/-- The switch over the state. -/
def dispatch : Step :=
  match p.state with
  | .dead => p.dead ch
  | .startReq => p.startReq ch
  | .reqMethod => p.reqMethod ch
  | .reqSpacesBeforeUrl => p.reqSpacesBeforeUrl ch
  | .reqSchema => p.reqUrlStart ch
  | .reqSchemaSlash => p.reqUrlStart ch
  | .reqSchemaSlashSlash => p.reqUrlStart ch
  | .reqServerStart => p.reqUrlStart ch
  | .reqServer => p.reqUrl ch
  | .reqServerWithAt => p.reqUrl ch
  | .reqPath => p.reqUrl ch
  | .reqQueryStringStart => p.reqUrl ch
  | .reqQueryString => p.reqUrl ch
  | .reqFragmentStart => p.reqUrl ch
  | .reqFragment => p.reqUrl ch
  | .reqHttpStart => p.reqHttpStart ch
  | .reqHttpH => p.expect ch 'T' .reqHttpHT
  | .reqHttpHT => p.expect ch 'T' .reqHttpHTT
  | .reqHttpHTT => p.expect ch 'P' .reqHttpHTTP
  | .reqHttpI => p.expect ch 'C' .reqHttpIC
  | .reqHttpIC => p.expect ch 'E' .reqHttpHTTP
  | .reqHttpHTTP => p.expect ch '/' .reqHttpMajor
  | .reqHttpMajor => p.reqHttpMajor ch
  | .reqHttpDot => p.reqHttpDot ch
  | .reqHttpMinor => p.reqHttpMinor ch
  | .reqHttpEnd => p.reqHttpEnd ch
  | .reqLineAlmostDone => p.reqLineAlmostDone ch
  | .headerFieldStart => p.headerFieldStart ch
  | .headerField => p.headerField ch
  | .headerValueDiscardWs => p.headerValueDiscardWs ch
  | .headerValueDiscardWsAlmostDone => p.headerValueDiscardWsAlmostDone ch
  | .headerValueDiscardLws => p.headerValueDiscardLws ch
  | .headerValueStart => p.headerValueStart ch
  | .headerValue => p.headerValue ch
  | .headerValueLws => p.headerValueLws ch
  | .headerAlmostDone => p.headerAlmostDone ch
  | .chunkSizeStart => p.chunkSizeStart ch
  | .chunkSize => p.chunkSize ch
  | .chunkParameters => p.chunkParameters ch
  | .chunkSizeAlmostDone => p.chunkSizeAlmostDone ch
  | .headersAlmostDone => p.headersAlmostDone ch
  | .headersDone => p.headersDone ch
  | .chunkData => p.chunkData
  | .chunkDataAlmostDone => p.chunkDataAlmostDone ch
  | .chunkDataDone => p.chunkDataDone ch
  | .bodyIdentity => p.bodyIdentity
  | .messageDone => p.messageDone

/-- `PARSING_HEADER`. -/
def parsingHeader : State → Bool
  | .chunkData => false
  | .chunkDataAlmostDone => false
  | .chunkDataDone => false
  | .bodyIdentity => false
  | .messageDone => false
  | _ => true

/-- One byte. The loops over header fields and values count their bytes at their end. -/
def step : Step :=
  if parsingHeader p.state then
    let q := { p with nread := p.nread + 1 }
    if ¬p.inLoop ∧ q.overflows then q.fail .headerOverflow else q.dispatch ch
  else p.dispatch ch

/-- The element whose mark a call sets to the start of its data. -/
def resume : Option Element :=
  match p.state with
  | .headerField => some .headerField
  | .headerValue => some .headerValue
  | .reqPath => some .url
  | .reqSchema => some .url
  | .reqSchemaSlash => some .url
  | .reqSchemaSlashSlash => some .url
  | .reqServerStart => some .url
  | .reqServer => some .url
  | .reqServerWithAt => some .url
  | .reqQueryStringStart => some .url
  | .reqQueryString => some .url
  | .reqFragmentStart => some .url
  | .reqFragment => some .url
  | _ => none

def leave : Except HttpErrno HttpParser :=
  if p.inLoop ∧ p.overflows then .error .headerOverflow else .ok p

end HttpParser

def machine : PushParser.Machine HttpParser UInt8 Element Notice HttpErrno where
  enter p := { p with inLoop := false, fast := 0 }
  resume := HttpParser.resume
  step := HttpParser.step
  leave := HttpParser.leave

/-- `http_parser_execute`. The end of the stream is signalled by an empty buffer. -/
def httpParserExecute {γ : Type*} (settings : PushParser.Client UInt8 Element Notice HttpErrno γ)
    (p : PushParser.Parser HttpParser HttpErrno γ) (data : List UInt8) :
    PushParser.Parser HttpParser HttpErrno γ × ℕ :=
  if data = [] ∧ p.errno = none then
    if p.ctrl.state = .dead ∨ p.ctrl.state = .startReq then (p, 0)
    else ({ p with errno := some .invalidEofState }, 1)
  else PushParser.feed machine settings p data

end Xzmjx.HttpParserModel
