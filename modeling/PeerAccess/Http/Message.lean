import PeerAccess.Http.Target
import PeerAccess.Text.Cut
import PeerAccess.Text.Numeral

/-!
# Request messages

HTTP/1 requests as a connection delivers them. Octets are characters below 256 here. Reading gives
the first message and what follows it, or says that it is malformed, or that more has to come.
-/

namespace PeerAccess.Http

open Text

inductive Version
  | v10
  | v11
deriving DecidableEq

def Version.text : Version → String
  | v10 => "HTTP/1.0"
  | v11 => "HTTP/1.1"

/-- How much of the octets after a head belongs to its message. -/
inductive Framing
  | fixed (length : Nat)
  | chunked
deriving DecidableEq

structure Message where
  method : List Char
  target : List Char
  version : Version
  headers : List (List Char × List Char)
deriving DecidableEq

inductive Incoming
  | unfinished
  | malformed
  | complete (message : Message) (rest : List Char)

/-! ## Lines -/

/-- The first line without its end, and what follows it. -/
def readLine (cs : List Char) : Option (List Char × List Char) :=
  (cut '\n' cs).map fun (line, rest) =>
    (if line.getLast? = some '\r' then line.dropLast else line, rest)

def isTokenChar (c : Char) : Bool :=
  c.isAlphanum || "!#$%&'*+-.^_|~".toList.contains c || c.toNat == 0x60

def isToken (cs : List Char) : Bool := !cs.isEmpty && cs.all isTokenChar

def isAuthorityChar (c : Char) : Bool := c.isAlphanum || "-._~%!$&'()*+,;=:@[]".toList.contains c

/-- Characters that no target may hold as they are. -/
def isBarredChar (c : Char) : Bool :=
  c.toNat ≤ 0x20 || c.toNat == 0x7F || c == '<' || c == '>' || c.toNat == 0x60

def isTarget (cs : List Char) : Bool :=
  match cs with
  | [] => false
  | '/' :: _ => cs.all (!isBarredChar ·)
  | _ =>
    match afterScheme? cs with
    | some r => cs.all (!isBarredChar ·) && (r.head?.any fun c => c != '/' && !isPathEnd c)
    | none => cs.all isAuthorityChar

def readVersion? (cs : List Char) : Option Version :=
  [Version.v10, .v11].find? fun v => v.text.toList == cs

/-- The message that a request line opens. -/
def readRequestLine? (line : List Char) : Option Message :=
  match line.splitOn ' ' with
  | [method, target, version] => do
    let version ← readVersion? version
    if isToken method && isTarget target then some { method, target, version, headers := [] }
    else none
  | _ => none

def isSpaceOrTab (c : Char) : Bool := c == ' ' || c == '\t'

def trimSpaces (cs : List Char) : List Char :=
  ((cs.dropWhile isSpaceOrTab).reverse.dropWhile isSpaceOrTab).reverse

/-- A name in lower case, and its value without the blanks around it. -/
def readHeader? (line : List Char) : Option (List Char × List Char) := do
  let (name, value) ← cut ':' line
  if isToken name && value.all (fun c => c == '\t' || 0x20 ≤ c.toNat && c.toNat != 0x7F) then
    some (name.map Char.toLower, trimSpaces value)
  else none

namespace Message

/-- The values of all headers of this name. -/
def values (m : Message) (name : String) : List (List Char) :=
  (m.headers.filter (·.1 == name.toList)).map (·.2)

/-- The words of all headers of this name, which separates them by commas. -/
def words (m : Message) (name : String) : List (List Char) :=
  ((m.values name).flatMap (·.splitOn ',')).map fun w => (trimSpaces w).map Char.toLower

/-- Whether the connection stays open after the answer. -/
def keepsAlive (m : Message) : Bool :=
  match m.version with
  | .v11 => !(m.words "connection").contains "close".toList
  | .v10 => (m.words "connection").contains "keep-alive".toList

/-- A message has one length, however often it says so; chunks go before a length. -/
def framing? (m : Message) : Option Framing :=
  match (m.words "transfer-encoding").getLast?, m.values "content-length" with
  | some coding, _ =>
    if m.version = .v11 ∧ coding = "chunked".toList then some .chunked else none
  | none, [] => some (.fixed 0)
  | none, v :: vs =>
    if !v.isEmpty && v.all isDigit && vs.all (· == v) then some (.fixed (decimal v)) else none

end Message

/-! ## Bodies -/

/-- What follows a body of `n` octets. -/
def skipFixed (m : Message) (n : Nat) (cs : List Char) : Incoming :=
  if n ≤ cs.length then .complete m (cs.drop n) else .unfinished

/-- What follows the empty line after the last chunk. -/
def skipTrailers (m : Message) : Nat → List Char → Incoming
  | 0, _ => .unfinished
  | fuel + 1, cs =>
    match readLine cs with
    | none => .unfinished
    | some ([], rest) => .complete m rest
    | some (_, rest) => skipTrailers m fuel rest

/-- What follows a chunked body. Every line takes at least one octet of fuel. -/
def skipChunks (m : Message) : Nat → List Char → Incoming
  | 0, _ => .unfinished
  | fuel + 1, cs =>
    match readLine cs with
    | none => .unfinished
    | some (line, rest) =>
      let size := trimSpaces (line.takeWhile (· != ';'))
      if size.isEmpty || !size.all isHexDigit then .malformed
      else if hexadecimal size = 0 then skipTrailers m fuel rest
      else
        match readLine (rest.drop (hexadecimal size)) with
        | none => .unfinished
        | some ([], rest) => skipChunks m fuel rest
        | some _ => .malformed

/-! ## Messages -/

/-- The headers up to the empty line, and the body after it. -/
def readHeaders (m : Message) : Nat → List Char → Incoming
  | 0, _ => .unfinished
  | fuel + 1, cs =>
    match readLine cs with
    | none => .unfinished
    | some ([], rest) =>
      match m.framing? with
      | none => .malformed
      | some (.fixed n) => skipFixed m n rest
      | some .chunked => skipChunks m rest.length rest
    | some (line, rest) =>
      match readHeader? line with
      | none => .malformed
      | some h => readHeaders { m with headers := m.headers ++ [h] } fuel rest

/-- Empty lines before a request do not count. -/
def readMessage : Nat → List Char → Incoming
  | 0, _ => .unfinished
  | fuel + 1, cs =>
    match readLine cs with
    | none => .unfinished
    | some ([], rest) => readMessage fuel rest
    | some (line, rest) =>
      match readRequestLine? line with
      | none => .malformed
      | some m => readHeaders m fuel rest

/-- The first message of `cs`. -/
def Incoming.read (cs : List Char) : Incoming := readMessage (cs.length + 1) cs

end PeerAccess.Http
