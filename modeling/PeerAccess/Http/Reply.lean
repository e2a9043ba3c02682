import PeerAccess.Http.Handler
import PeerAccess.Http.Message

/-!
# Replies

A response on its way to the client: status line, headers and the body, which an answer to `HEAD`
announces and leaves out.
-/

namespace PeerAccess.Http

open Text

def reasonOf? : Nat → Option String
  | 100 => some "Continue"
  | 101 => some "Switching Protocols"
  | 102 => some "Processing"
  | 200 => some "OK"
  | 201 => some "Created"
  | 202 => some "Accepted"
  | 203 => some "Non Authoritative Information"
  | 204 => some "No Content"
  | 205 => some "Reset Content"
  | 206 => some "Partial Content"
  | 207 => some "Multi-Status"
  | 208 => some "Already Reported"
  | 226 => some "IM Used"
  | 300 => some "Multiple Choices"
  | 301 => some "Moved Permanently"
  | 302 => some "Found"
  | 303 => some "See Other"
  | 304 => some "Not Modified"
  | 305 => some "Use Proxy"
  | 307 => some "Temporary Redirect"
  | 308 => some "Permanent Redirect"
  | 400 => some "Bad Request"
  | 401 => some "Unauthorized"
  | 402 => some "Payment Required"
  | 403 => some "Forbidden"
  | 404 => some "Not Found"
  | 405 => some "Method Not Allowed"
  | 406 => some "Not Acceptable"
  | 407 => some "Proxy Authentication Required"
  | 408 => some "Request Timeout"
  | 409 => some "Conflict"
  | 410 => some "Gone"
  | 411 => some "Length Required"
  | 412 => some "Precondition Failed"
  | 413 => some "Payload Too Large"
  | 414 => some "URI Too Long"
  | 415 => some "Unsupported Media Type"
  | 416 => some "Range Not Satisfiable"
  | 417 => some "Expectation Failed"
  | 418 => some "I'm a teapot"
  | 421 => some "Misdirected Request"
  | 422 => some "Unprocessable Entity"
  | 423 => some "Locked"
  | 424 => some "Failed Dependency"
  | 426 => some "Upgrade Required"
  | 428 => some "Precondition Required"
  | 429 => some "Too Many Requests"
  | 431 => some "Request Header Fields Too Large"
  | 451 => some "Unavailable For Legal Reasons"
  | 500 => some "Internal Server Error"
  | 501 => some "Not Implemented"
  | 502 => some "Bad Gateway"
  | 503 => some "Service Unavailable"
  | 504 => some "Gateway Timeout"
  | 505 => some "HTTP Version Not Supported"
  | 506 => some "Variant Also Negotiates"
  | 507 => some "Insufficient Storage"
  | 508 => some "Loop Detected"
  | 510 => some "Not Extended"
  | 511 => some "Network Authentication Required"
  | _ => none

structure Reply where
  version : Version
  status : Nat
  headers : List (String × String)
  body : String
deriving DecidableEq

namespace Reply

def statusLine (r : Reply) : String :=
  let reason := (reasonOf? r.status).getD "<none>"
  s!"{r.version.text} {r.status} {reason}"

/-- These statuses never have a body, nor a length of it. -/
def hasNoLength (status : Nat) : Bool := status < 200 || status == 204 || status == 304

/-- The length header of an answer. -/
def lengthHeader (isHead : Bool) (r : Response) : List (String × String) :=
  if hasNoLength r.status || isHead && r.body.isEmpty then []
  else [("content-length", toString r.body.utf8ByteSize)]

/-- The answer to a message. Only a client that could have kept the connection is told that it
closes. -/
def answering (m : Message) (r : Response) : Reply :=
  let isHead := m.method == "HEAD".toList
  let close := m.version == .v11 && !m.keepsAlive
  { version := m.version
    status := r.status
    headers := (if close then [("connection", "close")] else []) ++ lengthHeader isHead r
    body := if isHead || hasNoLength r.status then "" else r.body }

/-- The answer to something that is no message. -/
def badRequest : Reply where
  version := .v11
  status := 400
  headers := [("connection", "close"), ("content-length", "0")]
  body := ""

/-- The octets of the reply. -/
def text (r : Reply) : String :=
  let headers := String.join (r.headers.map fun (k, v) => s!"{k}: {v}\r\n")
  s!"{statusLine r}\r\n{headers}\r\n{r.body}"

end Reply

end PeerAccess.Http
