import Mathlib.Logic.Function.Basic
import Mathlib.Tactic.Common

/-!
# The URL half of http_parser

Character classes, the states of `http_parser_execute`, the byte-for-byte URL
automaton `parse_url_char` and `http_parser_parse_url`, which turns its
transitions into URL components. The parser is compiled in strict mode. States
and branches that only responses reach are left out.
-/
namespace Xzmjx.HttpParserModel

/-- The bytes of an ASCII string. -/
def bytes (s : String) : List UInt8 := s.toList.map Char.toUInt8

def CR : UInt8 := 13
def LF : UInt8 := 10

def lower (c : UInt8) : UInt8 := c ||| 0x20

def isAlpha (c : UInt8) : Bool := 'a'.toUInt8 ≤ lower c && lower c ≤ 'z'.toUInt8
def isNum (c : UInt8) : Bool := '0'.toUInt8 ≤ c && c ≤ '9'.toUInt8
def isAlphanum (c : UInt8) : Bool := isAlpha c || isNum c
def isHex (c : UInt8) : Bool := isNum c || ('a'.toUInt8 ≤ lower c && lower c ≤ 'f'.toUInt8)
def isMark (c : UInt8) : Bool := c ∈ bytes "-_.!~*'()"
def isUserinfoChar (c : UInt8) : Bool := isAlphanum c || isMark c || c ∈ bytes "%;:&=+$,"
def isHostChar (c : UInt8) : Bool := isAlphanum c || c = '.'.toUInt8 || c = '-'.toUInt8

/-- The table `normal_url_char`: visible ASCII without `#` and `?`. -/
def isUrlChar (c : UInt8) : Bool := 32 < c && c < 127 && c != '#'.toUInt8 && c != '?'.toUInt8

/-- The table `tokens`: the lower-cased token character, if `c` is one. -/
def token (c : UInt8) : Option UInt8 :=
  if isAlpha c then some (lower c)
  else if isNum c || c ∈ bytes "!#$%&'*+-.^_\x60|~" then some c
  else none

def isHeaderChar (c : UInt8) : Bool := c = CR || c = LF || c = 9 || (31 < c && c != 127)

/-- The table `unhex`. Its upper half is not initialised explicitly, hence zero. -/
def unhex (c : UInt8) : Option ℕ :=
  if isNum c then some (c - '0'.toUInt8).toNat
  else if 128 ≤ c then some 0
  else if isHex c then some ((lower c - 'a'.toUInt8).toNat + 10)
  else none

/-- `enum state`, as far as requests use it. -/
inductive State
  | dead
  | startReq
  | reqMethod
  | reqSpacesBeforeUrl
  | reqSchema
  | reqSchemaSlash
  | reqSchemaSlashSlash
  | reqServerStart
  | reqServer
  | reqServerWithAt
  | reqPath
  | reqQueryStringStart
  | reqQueryString
  | reqFragmentStart
  | reqFragment
  | reqHttpStart
  | reqHttpH
  | reqHttpHT
  | reqHttpHTT
  | reqHttpHTTP
  | reqHttpI
  | reqHttpIC
  | reqHttpMajor
  | reqHttpDot
  | reqHttpMinor
  | reqHttpEnd
  | reqLineAlmostDone
  | headerFieldStart
  | headerField
  | headerValueDiscardWs
  | headerValueDiscardWsAlmostDone
  | headerValueDiscardLws
  | headerValueStart
  | headerValue
  | headerValueLws
  | headerAlmostDone
  | chunkSizeStart
  | chunkSize
  | chunkParameters
  | chunkSizeAlmostDone
  | headersAlmostDone
  | headersDone
  | chunkData
  | chunkDataAlmostDone
  | chunkDataDone
  | bodyIdentity
  | messageDone
  deriving DecidableEq, Repr

/-- `parse_url_char`. -/
def parseUrlChar (s : State) (ch : UInt8) : State :=
  if ch = ' '.toUInt8 ∨ ch = CR ∨ ch = LF ∨ ch = 9 ∨ ch = 12 then .dead
  else
    match s with
    | .reqSpacesBeforeUrl =>
        if ch = '/'.toUInt8 ∨ ch = '*'.toUInt8 then .reqPath
        else if isAlpha ch then .reqSchema
        else .dead
    | .reqSchema =>
        if isAlpha ch then s
        else if ch = ':'.toUInt8 then .reqSchemaSlash
        else .dead
    | .reqSchemaSlash => if ch = '/'.toUInt8 then .reqSchemaSlashSlash else .dead
    | .reqSchemaSlashSlash => if ch = '/'.toUInt8 then .reqServerStart else .dead
    | .reqServerWithAt => if ch = '@'.toUInt8 then .dead else server ch
    | .reqServerStart => server ch
    | .reqServer => server ch
    | .reqPath =>
        if isUrlChar ch then s
        else if ch = '?'.toUInt8 then .reqQueryStringStart
        else if ch = '#'.toUInt8 then .reqFragmentStart
        else .dead
    | .reqQueryStringStart => query ch
    | .reqQueryString => query ch
    | .reqFragmentStart =>
        if isUrlChar ch then .reqFragment
        else if ch = '?'.toUInt8 then .reqFragment
        else if ch = '#'.toUInt8 then s
        else .dead
    | .reqFragment =>
        if isUrlChar ch then s
        else if ch = '?'.toUInt8 ∨ ch = '#'.toUInt8 then s
        else .dead
    | _ => .dead
where
  /-- The common part of the server states. -/
  server (ch : UInt8) : State :=
    if ch = '/'.toUInt8 then .reqPath
    else if ch = '?'.toUInt8 then .reqQueryStringStart
    else if ch = '@'.toUInt8 then .reqServerWithAt
    else if isUserinfoChar ch || ch = '['.toUInt8 || ch = ']'.toUInt8 then .reqServer
    else .dead
  query (ch : UInt8) : State :=
    if isUrlChar ch then .reqQueryString
    else if ch = '?'.toUInt8 then .reqQueryString
    else if ch = '#'.toUInt8 then .reqFragmentStart
    else .dead

inductive HostState
  | dead
  | userinfoStart
  | userinfo
  | hostStart
  | hostV6Start
  | host
  | hostV6
  | hostV6End
  | hostV6ZoneStart
  | hostV6Zone
  | hostPortStart
  | hostPort
  deriving DecidableEq, Repr

/-- `http_parse_host_char`. -/
def httpParseHostChar (s : HostState) (ch : UInt8) : HostState :=
  match s with
  | .userinfo => userinfo ch
  | .userinfoStart => userinfo ch
  | .hostStart =>
      if ch = '['.toUInt8 then .hostV6Start else if isHostChar ch then .host else .dead
  | .host => if isHostChar ch then .host else if ch = ':'.toUInt8 then .hostPortStart else .dead
  | .hostV6End => if ch = ':'.toUInt8 then .hostPortStart else .dead
  | .hostV6 =>
      if ch = ']'.toUInt8 then .hostV6End
      else if v6 ch then .hostV6
      else if ch = '%'.toUInt8 then .hostV6ZoneStart
      else .dead
  | .hostV6Start => if v6 ch then .hostV6 else .dead
  | .hostV6Zone => if ch = ']'.toUInt8 then .hostV6End else zone ch
  | .hostV6ZoneStart => zone ch
  | .hostPort => if isNum ch then .hostPort else .dead
  | .hostPortStart => if isNum ch then .hostPort else .dead
  | .dead => .dead
where
  userinfo (ch : UInt8) : HostState :=
    if ch = '@'.toUInt8 then .hostStart else if isUserinfoChar ch then .userinfo else .dead
  v6 (ch : UInt8) : Bool := isHex ch || ch = ':'.toUInt8 || ch = '.'.toUInt8
  zone (ch : UInt8) : HostState :=
    if isAlphanum ch || ch ∈ bytes "%.-_~" then .hostV6Zone else .dead

inductive UrlField
  | schema
  | host
  | port
  | path
  | query
  | fragment
  | userinfo
  deriving DecidableEq, Repr

/-- `field_data`: both members have 16 bits. -/
structure Span where
  off : UInt16
  len : UInt16
  deriving DecidableEq, Repr

/-- `struct http_parser_url`: a field is set when its bit of `field_set` is. -/
abbrev HttpParserUrl := UrlField → Option Span

def Span.text (d : Span) (buf : List UInt8) : List UInt8 :=
  (buf.drop d.off.toNat).take d.len.toNat

/-- `u->field_data[f].len++`. -/
def grow (u : HttpParserUrl) (f : UrlField) : HttpParserUrl :=
  Function.update u f ((u f).map fun d => { d with len := d.len + 1 })

/-- The field a state of the URL automaton belongs to: none for a delimiter. -/
def urlField : State → Option (Option UrlField)
  | .reqSchemaSlash => some none
  | .reqSchemaSlashSlash => some none
  | .reqServerStart => some none
  | .reqQueryStringStart => some none
  | .reqFragmentStart => some none
  | .reqSchema => some (some .schema)
  | .reqServerWithAt => some (some .host)
  | .reqServer => some (some .host)
  | .reqPath => some (some .path)
  | .reqQueryString => some (some .query)
  | .reqFragment => some (some .fragment)
  | _ => none

/-- The loop of `http_parser_parse_url`; `i` is `p - buf`. -/
def parseUrlLoop (s : State) (oldUf : Option UrlField) (foundAt : Bool) (u : HttpParserUrl)
    (i : ℕ) : List UInt8 → Option (HttpParserUrl × Bool)
  | [] => some (u, foundAt)
  | ch :: rest =>
      let s' := parseUrlChar s ch
      let foundAt' := foundAt || s' = .reqServerWithAt
      match urlField s' with
      | none => none
      | some none => parseUrlLoop s' oldUf foundAt' u (i + 1) rest
      | some (some uf) =>
          if oldUf = some uf then parseUrlLoop s' oldUf foundAt' (grow u uf) (i + 1) rest
          else parseUrlLoop s' (some uf) foundAt'
            (Function.update u uf (some ⟨UInt16.ofNat i, 1⟩)) (i + 1) rest

/-- The loop of `http_parse_host` and its check of the last state. -/
def parseHostLoop (s : HostState) (u : HttpParserUrl) (i : ℕ) : List UInt8 → Option HttpParserUrl
  | [] =>
      match s with
      | .host => some u
      | .hostV6End => some u
      | .hostPort => some u
      | .dead => some u
      | _ => none
  | ch :: rest =>
      match httpParseHostChar s ch with
      | .dead => none
      | .host => parseHostLoop .host (grow (enter .host .host u) .host) (i + 1) rest
      | .hostV6 => parseHostLoop .hostV6 (grow (enter .hostV6 .host u) .host) (i + 1) rest
      | .hostV6ZoneStart => parseHostLoop .hostV6ZoneStart (grow u .host) (i + 1) rest
      | .hostV6Zone => parseHostLoop .hostV6Zone (grow u .host) (i + 1) rest
      | .hostPort => parseHostLoop .hostPort (grow (reset .hostPort .port u) .port) (i + 1) rest
      | .userinfo =>
          parseHostLoop .userinfo (grow (reset .userinfo .userinfo u) .userinfo) (i + 1) rest
      | s' => parseHostLoop s' u (i + 1) rest
where
  /-- Entering `t` moves the offset of the field. -/
  enter (t : HostState) (f : UrlField) (u : HttpParserUrl) : HttpParserUrl :=
    if s = t then u else Function.update u f ((u f).map fun d => { d with off := UInt16.ofNat i })
  /-- Entering `t` sets the field. -/
  reset (t : HostState) (f : UrlField) (u : HttpParserUrl) : HttpParserUrl :=
    if s = t then u else Function.update u f (some ⟨UInt16.ofNat i, 0⟩)

/-- `http_parse_host`. -/
def httpParseHost (buf : List UInt8) (u : HttpParserUrl) (d : Span) (foundAt : Bool) :
    Option HttpParserUrl :=
  parseHostLoop (if foundAt then .userinfoStart else .hostStart)
    (Function.update u .host (some { d with len := 0 })) d.off.toNat (d.text buf)

/-- The port fits into 16 bits. -/
def portOk (digits : List UInt8) : Bool :=
  digits.foldl (fun v c => v * 10 + (c - '0'.toUInt8).toNat) 0 ≤ 0xffff

/-- `http_parser_parse_url` for `is_connect = 0`; `none` is a non-zero return. -/
def httpParserParseUrl (buf : List UInt8) : Option HttpParserUrl :=
  if buf = [] then none
  else
    match parseUrlLoop .reqSpacesBeforeUrl none false (fun _ => none) 0 buf with
    | none => none
    | some (u, foundAt) =>
        match u .host with
        | none => if (u .schema).isSome then none else some u
        | some d =>
            match httpParseHost buf u d foundAt with
            | none => none
            | some u' =>
                match u' .port with
                | none => some u'
                | some p => if portOk (p.text buf) then some u' else none

end Xzmjx.HttpParserModel
