import Xzmjx.HttpParams
import Xzmjx.Numerals

/-!
# HttpRequest::dump and HttpResponse::dump

A message is its first line, a header section of lines that each end with CRLF, an empty line
and the body. The fields for the connection and the length are written from other members than
the headers, beside what the map of headers holds.
-/
namespace Xzmjx.HttpRequestModel
open HttpParserModel

def CRLF : Bytes := [CR, LF]

/-- How a stream writes an unsigned integer. -/
def decimal (n : ℕ) : Bytes := bytes n.repr

theorem decimal_eq (n : ℕ) : decimal n = Numerals.numeral 10 n := by
  rw [decimal, bytes, Nat.toList_repr]
  rfl

/-- `HttpRequest` with the flag that only `dump` reads. -/
structure WireRequest extends HttpRequest where
  websocket : Bool := false
  deriving DecidableEq, Repr

/-- The number of a status; a cast makes any integer one. -/
abbrev HttpStatus := ℕ

/-- `HttpStatusToString`. -/
def HttpStatusToString : HttpStatus → Bytes
  | 100 => bytes "Continue"
  | 101 => bytes "Switching Protocols"
  | 102 => bytes "Processing"
  | 200 => bytes "OK"
  | 201 => bytes "Created"
  | 202 => bytes "Accepted"
  | 203 => bytes "Non - Authoritative Information"
  | 204 => bytes "No Content"
  | 205 => bytes "Reset Content"
  | 206 => bytes "Partial Content"
  | 207 => bytes "Multi - Status"
  | 208 => bytes "Already Reported"
  | 226 => bytes "IM Used"
  | 300 => bytes "Multiple Choices"
  | 301 => bytes "Moved Permanently"
  | 302 => bytes "Found"
  | 303 => bytes "See Other"
  | 304 => bytes "Not Modified"
  | 305 => bytes "Use Proxy"
  | 307 => bytes "Temporary Redirect"
  | 308 => bytes "Permanent Redirect"
  | 400 => bytes "Bad Request"
  | 401 => bytes "Unauthorized"
  | 402 => bytes "Payment Required"
  | 403 => bytes "Forbidden"
  | 404 => bytes "Not Found"
  | 405 => bytes "Method Not Allowed"
  | 406 => bytes "Not Acceptable"
  | 407 => bytes "Proxy Authentication Required"
  | 408 => bytes "Request Timeout"
  | 409 => bytes "Conflict"
  | 410 => bytes "Gone"
  | 411 => bytes "Length Required"
  | 412 => bytes "Precondition Failed"
  | 413 => bytes "Payload Too Large"
  | 414 => bytes "URI Too Long"
  | 415 => bytes "Unsupported Media Type"
  | 416 => bytes "Range Not Satisfiable"
  | 417 => bytes "Expectation Failed"
  | 421 => bytes "Misdirected Request"
  | 422 => bytes "Unprocessable Entity"
  | 423 => bytes "Locked"
  | 424 => bytes "Failed Dependency"
  | 426 => bytes "Upgrade Required"
  | 428 => bytes "Precondition Required"
  | 429 => bytes "Too Many Requests"
  | 431 => bytes "Request Header Fields Too Large"
  | 451 => bytes "Unavailable For Legal Reasons"
  | 500 => bytes "Internal Server Error"
  | 501 => bytes "Not Implemented"
  | 502 => bytes "Bad Gateway"
  | 503 => bytes "Service Unavailable"
  | 504 => bytes "Gateway Timeout"
  | 505 => bytes "HTTP Version Not Supported"
  | 506 => bytes "Variant Also Negotiates"
  | 507 => bytes "Insufficient Storage"
  | 508 => bytes "Loop Detected"
  | 510 => bytes "Not Extended"
  | 511 => bytes "Network Authentication Required"
  | _ => bytes "<unknown>"

structure HttpResponse where
  status : HttpStatus := 200
  version : UInt8 := 0x11
  close : Bool := false
  websocket : Bool := false
  body : Bytes := []
  header : MapType := []
  cookies : List Bytes := []
  reason : Bytes := []
  deriving DecidableEq, Repr

/-- `HttpRequest::createResponse`. -/
def HttpRequest.createResponse (r : HttpRequest) : HttpResponse :=
  { version := r.version, close := r.close }

def HttpResponse.setHeader (r : HttpResponse) (key val : Bytes) : HttpResponse :=
  { r with header := r.header.set key val }

/-! ### The parts of a header section -/

/-- The text of a header. -/
def headerLine (h : Bytes × Bytes) : Bytes := h.1 ++ bytes ": " ++ h.2

/-- What `strcasecmp` holds equal to `connection`. -/
def isConnection (key : Bytes) : Bool := caseKey key = caseKey (bytes "connection")

/-- The loop over the headers. -/
def writeHeaders (websocket : Bool) (headers : MapType) : Bytes :=
  headers.flatMap fun h => if !websocket && isConnection h.1 then [] else headerLine h ++ CRLF

def connectionLine (close : Bool) : Bytes :=
  bytes "connection: " ++ if close then bytes "close" else bytes "keep-alive"

def writeConnection (websocket close : Bool) : Bytes :=
  if websocket then [] else connectionLine close ++ CRLF

def lengthLine (body : Bytes) : Bytes := bytes "content-length: " ++ decimal body.length

def cookieLine (cookie : Bytes) : Bytes := bytes "Set-Cookie: " ++ cookie

/-- `" HTTP/"` and the two halves of the version. -/
def versionText (version : UInt8) : Bytes :=
  bytes "HTTP/" ++ decimal (version >>> 4).toNat ++ bytes "." ++ decimal (version &&& 0x0f).toNat

/-- What follows the headers: a body comes with its length. -/
def writeBody (body : Bytes) : Bytes :=
  if body ≠ [] then lengthLine body ++ CRLF ++ CRLF ++ body else CRLF

/-! ### Requests -/

namespace WireRequest

def startLine (r : WireRequest) : Bytes :=
  r.method.text ++ bytes " " ++ r.path ++ (if r.query = [] then [] else bytes "?") ++ r.query ++
    (if r.fragment = [] then [] else bytes "#") ++ r.fragment ++ bytes " " ++
    versionText r.version

def dump (r : WireRequest) : Bytes :=
  r.startLine ++ CRLF ++ writeConnection r.websocket r.close ++
    writeHeaders r.websocket r.headers ++ writeBody r.body

end WireRequest

/-! ### Responses -/

namespace HttpResponse

def startLine (r : HttpResponse) : Bytes :=
  versionText r.version ++ bytes " " ++ decimal r.status ++ bytes " " ++
    if r.reason = [] then HttpStatusToString r.status else r.reason

def dump (r : HttpResponse) : Bytes :=
  r.startLine ++ CRLF ++ writeHeaders r.websocket r.header ++
    (r.cookies.flatMap fun i => cookieLine i ++ CRLF) ++
    writeConnection r.websocket r.close ++ writeBody r.body

end HttpResponse

end Xzmjx.HttpRequestModel
