import PeerAccess.Json.Basic

/-!
# Printing JSON

No blanks between tokens. In strings only the quote, the backslash, control characters and unpaired
surrogates are escaped.
-/

namespace PeerAccess.Json

open Text

/-- An escape of four digits. -/
def quad (n : Nat) : List Char :=
  let digits := writeHexadecimal n
  '\\' :: 'u' :: List.replicate (4 - digits.length) '0' ++ digits

def printPoint (n : Nat) : List Char :=
  if n = 0x22 then ['\\', '"']
  else if n = 0x5C then ['\\', '\\']
  else if n = 0x08 then ['\\', 'b']
  else if n = 0x09 then ['\\', 't']
  else if n = 0x0A then ['\\', 'n']
  else if n = 0x0C then ['\\', 'f']
  else if n = 0x0D then ['\\', 'r']
  else if n < 0x20 || isLead n || isTrail n then quad n
  else [Char.ofNat n]

def printPoints (ps : List Nat) : List Char := '"' :: ps.flatMap printPoint ++ ['"']

mutual

def print : Json → List Char
  | null => "null".toList
  | bool b => (if b then "true" else "false").toList
  | number literal => literal
  | string ps => printPoints ps
  | array items => '[' :: printItems items ++ [']']
  | object members => '\x7b' :: printMembers members ++ ['\x7d']

def printItems : List Json → List Char
  | [] => []
  | [j] => print j
  | j :: js => print j ++ ',' :: printItems js

def printMembers : List (List Nat × Json) → List Char
  | [] => []
  | [(k, v)] => printPoints k ++ ':' :: print v
  | (k, v) :: ms => printPoints k ++ ':' :: print v ++ ',' :: printMembers ms

end

instance : ToString Json := ⟨fun j => String.ofList j.print⟩

end PeerAccess.Json
