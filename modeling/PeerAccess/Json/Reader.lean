import PeerAccess.Json.Basic

/-!
# Reading JSON

The grammar of JSON and nothing more: four blanks, no control characters in strings, numbers
without leading zeros, one value with blanks around it.
-/

namespace PeerAccess.Json

open Text

def isSpace (c : Char) : Bool := c == ' ' || c == '\t' || c == '\n' || c == '\r'

def skipSpace (cs : List Char) : List Char := cs.dropWhile isSpace

/-- The point of an escape of one letter. -/
def escapePoint? : Char → Option Nat
  | '"' => some 0x22
  | '\\' => some 0x5C
  | '/' => some 0x2F
  | 'b' => some 0x08
  | 'f' => some 0x0C
  | 'n' => some 0x0A
  | 'r' => some 0x0D
  | 't' => some 0x09
  | _ => none

/-- The point of an escape of four digits. -/
def quadPoint? (digits : List Char) : Option Nat :=
  if digits.all isHexDigit then some (hexadecimal digits) else none

/-- The points of a string whose opening quote has been read, and what follows the closing one. -/
def readPoints : List Char → Option (List Nat × List Char)
  | '"' :: r => some ([], r)
  | '\\' :: 'u' :: a :: b :: c :: d :: r => do
    let n ← quadPoint? [a, b, c, d]
    let (ps, rest) ← readPoints r
    return (n :: ps, rest)
  | '\\' :: e :: r => do
    let n ← escapePoint? e
    let (ps, rest) ← readPoints r
    return (n :: ps, rest)
  | c :: r =>
    if c.toNat < 0x20 || c == '\\' then none
    else do
      let (ps, rest) ← readPoints r
      return (c.toNat :: ps, rest)
  | [] => none

/-- One digit or more. -/
def readDigits (cs : List Char) : Option (List Char × List Char) :=
  match cs.takeWhile isDigit with
  | [] => none
  | ds => some (ds, cs.dropWhile isDigit)

/-- A zero stands alone. -/
def readWhole : List Char → Option (List Char × List Char)
  | '0' :: r => some (['0'], r)
  | cs => readDigits cs

def readFraction : List Char → Option (List Char × List Char)
  | '.' :: r => (readDigits r).map fun (ds, rest) => ('.' :: ds, rest)
  | cs => some ([], cs)

def readSign : List Char → List Char × List Char
  | '+' :: r => (['+'], r)
  | '-' :: r => (['-'], r)
  | cs => ([], cs)

def readExponent : List Char → Option (List Char × List Char)
  | c :: r =>
    if c == 'e' || c == 'E' then
      let (sign, r) := readSign r
      (readDigits r).map fun (ds, rest) => (c :: sign ++ ds, rest)
    else some ([], c :: r)
  | [] => some ([], [])

/-- A number as it is written, and what follows it. -/
def readNumber (cs : List Char) : Option (List Char × List Char) := do
  let (sign, r) := match cs with
    | '-' :: r => (['-'], r)
    | cs => ([], cs)
  let (whole, r) ← readWhole r
  let (fraction, r) ← readFraction r
  let (exponent, r) ← readExponent r
  return (sign ++ whole ++ fraction ++ exponent, r)

mutual

/-- The first value and what follows it. Every step takes one unit of fuel. -/
def readValue : Nat → List Char → Option (Json × List Char)
  | 0, _ => none
  | fuel + 1, cs =>
    match skipSpace cs with
    | 'n' :: 'u' :: 'l' :: 'l' :: r => some (null, r)
    | 't' :: 'r' :: 'u' :: 'e' :: r => some (bool true, r)
    | 'f' :: 'a' :: 'l' :: 's' :: 'e' :: r => some (bool false, r)
    | '"' :: r => (readPoints r).map fun (ps, rest) => (string ps, rest)
    | '[' :: r =>
      match skipSpace r with
      | ']' :: rest => some (array [], rest)
      | r => (readItems fuel r).map fun (items, rest) => (array items, rest)
    | '\x7b' :: r =>
      match skipSpace r with
      | '\x7d' :: rest => some (object [], rest)
      | r => (readMembers fuel r).map fun (members, rest) => (object members, rest)
    | r => (readNumber r).map fun (literal, rest) => (number literal, rest)

/-- One item or more, through the closing bracket. -/
def readItems : Nat → List Char → Option (List Json × List Char)
  | 0, _ => none
  | fuel + 1, cs => do
    let (item, r) ← readValue fuel cs
    match skipSpace r with
    | ',' :: r => (readItems fuel r).map fun (items, rest) => (item :: items, rest)
    | ']' :: rest => some ([item], rest)
    | _ => none

/-- One member or more, through the closing brace. -/
def readMembers : Nat → List Char → Option (List (List Nat × Json) × List Char)
  | 0, _ => none
  | fuel + 1, cs =>
    match skipSpace cs with
    | '"' :: r => do
      let (name, r) ← readPoints r
      match skipSpace r with
      | ':' :: r => do
        let (value, r) ← readValue fuel r
        match skipSpace r with
        | ',' :: r =>
          (readMembers fuel r).map fun (members, rest) => ((name, value) :: members, rest)
        | '\x7d' :: rest => some ([(name, value)], rest)
        | _ => none
      | _ => none
    | _ => none

end

/-- The value that the whole text spells. A value takes at most two steps for each character. -/
def read (cs : List Char) : Option Json :=
  match readValue (2 * cs.length + 2) cs with
  | some (j, rest) => if skipSpace rest = [] then some j else none
  | none => none

def parse? (s : String) : Option Json := read s.toList

end PeerAccess.Json
