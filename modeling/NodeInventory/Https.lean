import NodeInventory.Exchange
import NodeInventory.Json.Basic
import NodeInventory.Protocol
import NodeInventory.Text

/-!
# HTTPS

What one exchange over HTTPS sends and receives; the connection itself is no part of this.
-/

namespace NodeInventory

/-!
## Status codes

`reason?` is the standard phrase of a status code, and `statusText` the code with its phrase.
-/

namespace Https

/-- The standard phrases of status codes. -/
def reasons : List (Nat × String) := [
  (100, "Continue"), (101, "Switching Protocols"), (102, "Processing"),
  (200, "OK"), (201, "Created"), (202, "Accepted"), (203, "Non Authoritative Information"),
  (204, "No Content"), (205, "Reset Content"), (206, "Partial Content"), (207, "Multi-Status"),
  (208, "Already Reported"), (226, "IM Used"),
  (300, "Multiple Choices"), (301, "Moved Permanently"), (302, "Found"), (303, "See Other"),
  (304, "Not Modified"), (305, "Use Proxy"), (307, "Temporary Redirect"),
  (308, "Permanent Redirect"),
  (400, "Bad Request"), (401, "Unauthorized"), (402, "Payment Required"), (403, "Forbidden"),
  (404, "Not Found"), (405, "Method Not Allowed"), (406, "Not Acceptable"),
  (407, "Proxy Authentication Required"), (408, "Request Timeout"), (409, "Conflict"),
  (410, "Gone"), (411, "Length Required"), (412, "Precondition Failed"),
  (413, "Payload Too Large"), (414, "URI Too Long"), (415, "Unsupported Media Type"),
  (416, "Range Not Satisfiable"), (417, "Expectation Failed"), (418, "I'm a teapot"),
  (421, "Misdirected Request"), (422, "Unprocessable Entity"), (423, "Locked"),
  (424, "Failed Dependency"), (425, "Too Early"), (426, "Upgrade Required"),
  (428, "Precondition Required"), (429, "Too Many Requests"),
  (431, "Request Header Fields Too Large"), (451, "Unavailable For Legal Reasons"),
  (500, "Internal Server Error"), (501, "Not Implemented"), (502, "Bad Gateway"),
  (503, "Service Unavailable"), (504, "Gateway Timeout"), (505, "HTTP Version Not Supported"),
  (506, "Variant Also Negotiates"), (507, "Insufficient Storage"), (508, "Loop Detected"),
  (510, "Not Extended"), (511, "Network Authentication Required")]

/-- The standard phrase of a status code. -/
def reason? (status : Nat) : Option String := reasons.lookup status

/-- A status code with its phrase. -/
def statusText (status : Nat) : String :=
  let reason := (reason? status).getD "<unknown status code>"
  s!"{status} {reason}"

/-- The status of a success. -/
def isSuccess (status : Nat) : Bool := 200 ≤ status && status < 300

end Https

/-!
## Request targets

`target` is what a request line names for an address: the path and the query behind the host,
without the fragment. Characters that may not stand there are percent-encoded, `\` counts as `/`,
and the segments `.` and `..` are resolved.
-/

namespace Https

/-- Control characters, blanks and what is not ASCII; all are encoded wherever they stand. -/
def isForbidden (c : Char) : Bool :=
  c ≤ ' ' || '\x7f' ≤ c || c = '"' || c = '<' || c = '>'

/-- Encoded in a path. -/
def isForbiddenInPath (c : Char) : Bool := isForbidden c || c = '\x60' || c = '\x7b' || c = '\x7d'

/-- Encoded in a query. -/
def isForbiddenInQuery (c : Char) : Bool := isForbidden c || c = '\x27'

/-- A text with some characters percent-encoded. -/
def encodeSome (forbidden : Char → Bool) (s : List Char) : List Char :=
  s.flatMap fun c =>
    if forbidden c then (String.utf8EncodeChar c).flatMap Text.Percent.encodeByte else [c]

/-- The segments of a path without its first slash. -/
def segments : List Char → List (List Char)
  | [] => [[]]
  | c :: s =>
    if c = '/' ∨ c = '\\' then [] :: segments s
    else match segments s with
      | [] => [[c]]
      | segment :: rest => (c :: segment) :: rest

/-- A segment with its encoded dots written out. -/
def plainDots : List Char → List Char
  | '%' :: '2' :: e :: s => if e = 'e' ∨ e = 'E' then '.' :: plainDots s else '%' :: '2' :: e :: s
  | c :: s => c :: plainDots s
  | [] => []

/-- Resolves segments, those before being `done` in reverse. What a dotted segment at the end leaves
is an empty one. -/
def resolve (done : List (List Char)) : List (List Char) → List (List Char)
  | [] => done.reverse
  | segment :: rest =>
    let dots := plainDots segment
    if dots = ['.', '.'] then resolve (if rest = [] then [] :: done.tail else done.tail) rest
    else if dots = ['.'] then resolve (if rest = [] then [] :: done else done) rest
    else resolve (encodeSome isForbiddenInPath segment :: done) rest

/-- The path that a request line names. -/
def targetPath (path : List Char) : List Char :=
  (resolve [] (segments path.tail)).flatMap ('/' :: ·)

/-- The path and the query that a request line names, from what stands behind the host. -/
def target (s : List Char) : List Char :=
  let s := (s.reverse.dropWhile (· ≤ ' ')).reverse.filter fun c =>
    c ≠ '\t' && c ≠ '\n' && c ≠ '\r'
  let s := s.takeWhile (· ≠ '#')
  let path := targetPath (s.takeWhile (· ≠ '?'))
  match s.dropWhile (· ≠ '?') with
  | _ :: query => path ++ '?' :: encodeSome isForbiddenInQuery query
  | [] => path

end Https

/-!
## Exchanges over HTTPS

* `Endpoint` is where requests go; `Endpoint.url` is the address of a path, which is part of every
  message about a failed request.
* `Peer` is the server at the other end, as far as one exchange shows it. `Peer.received` is the
  request as it arrives there, `Endpoint.answer` what the client makes of its reply: the body of a
  success, or an error. Every reply is read to its end before its status is looked at.
-/

namespace Https

/-- A server, by its host and port, and the path that its endpoints are under. -/
structure Endpoint where
  authority : String
  basePath : String
deriving DecidableEq, Repr

/-- What stands behind the host in the address of a path; a path that begins with `?` addresses the
base path itself. -/
def Endpoint.location (e : Endpoint) (path : String) : String :=
  e.basePath ++ (if path.toList.head? = some '?' then "" else "/") ++ path

/-- The address of a path. -/
def Endpoint.url (e : Endpoint) (path : String) : String :=
  s!"https://{e.authority}{e.location path}"

/-! ### Requests -/

/-- The name by which the client introduces itself. -/
def userAgent : String := "pdb-client/0.1.0"

/-- A request as it arrives. -/
structure Received where
  line : String
  connection : String
  accept : String
  userAgent : String
  contentType : Option String
  body : String
deriving DecidableEq, Repr

/-- A request as it is sent. -/
def Endpoint.send (e : Endpoint) (r : Request) : Received :=
  let target := String.ofList (target (e.location r.path).toList)
  { line := s!"{r.method.token} {target} HTTP/1.1"
    connection := "close"
    accept := "application/json"
    userAgent := userAgent
    contentType := r.body.map fun _ => "application/json"
    body := (r.body.map Json.text).getD "" }

/-! ### Replies -/

/-- A reply as it is sent. -/
structure RawReply where
  /-- The version of the protocol, such as `1.1`. -/
  version : String
  status : Nat
  body : List UInt8
  /-- The number of bytes that were announced and are not sent. -/
  missing : Nat

namespace RawReply

/-- Such a reply has no body, whatever it announces. -/
def isBodiless (r : RawReply) : Bool := r.status = 101 || r.status = 204 || r.status = 304

/-- The status line as errors show it. -/
def statusLine (r : RawReply) : String := s!"HTTP/{r.version} {statusText r.status}"

/-- The text of the body; broken parts of it are replaced. -/
def text (r : RawReply) : String :=
  if r.isBodiless then "" else String.ofList (Text.Utf8.decodeLossy r.body)

end RawReply

/-- The server at the other end. -/
inductive Peer where
  /-- The client does not trust its certificate. -/
  | untrusted
  /-- It ends the connection without a reply. -/
  | hangsUp
  | replies (r : RawReply)

/-- The request that the peer receives, if any. -/
def Peer.received (p : Peer) (e : Endpoint) (r : Request) : Option Received :=
  match p with
  | .untrusted => none
  | _ => some (e.send r)

/-- What the client makes of the reply to a request. -/
def Endpoint.answer (e : Endpoint) (p : Peer) : Answer := fun r =>
  let failed : Reply :=
    .error (.transport ⟨s!"Failed to {r.method.token} {e.url r.path}", some .connection⟩)
  match p with
  | .untrusted | .hangsUp => failed
  | .replies reply =>
    if reply.status < 101 ∨ (101 < reply.status ∧ reply.status < 200) ∨ 999 < reply.status then
      failed
    else if 0 < reply.missing ∧ !reply.isBodiless then
      .error (.transport ⟨"Failed to read response body from " ++ e.url r.path, some .reply⟩)
    else if isSuccess reply.status then .ok reply.text
    else .error (.httpStatus reply.statusLine reply.text)

end Https

end NodeInventory
