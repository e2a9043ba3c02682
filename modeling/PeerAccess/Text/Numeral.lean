/-!
# Numerals

Digits as text: the classes that the readers accept and the numbers that they stand for. A numeral
is bounded by its number of digits; leading zeros count as digits and change no value.
-/

namespace PeerAccess.Text

/-- One of `0` to `9`; digits of other scripts are not digits here. -/
def isDigit (c : Char) : Bool := c.isDigit

def isHexDigit (c : Char) : Bool :=
  c.isDigit || ('a' ≤ c && c ≤ 'f') || ('A' ≤ c && c ≤ 'F')

/-- Between `least` and `most` digits, and nothing else. -/
def isNumeral (digit : Char → Bool) (least most : Nat) (cs : List Char) : Bool :=
  least ≤ cs.length && cs.length ≤ most && cs.all digit

def digitValue (c : Char) : Nat :=
  if c.isDigit then c.toNat - '0'.toNat
  else if 'a' ≤ c then c.toNat - 'a'.toNat + 10
  else c.toNat - 'A'.toNat + 10

/-- The number that the digits stand for, the first one highest. -/
def valueIn (base : Nat) (cs : List Char) : Nat :=
  cs.foldl (fun n c => base * n + digitValue c) 0

def decimal (cs : List Char) : Nat := valueIn 10 cs

def hexadecimal (cs : List Char) : Nat := valueIn 16 cs

/-- A decimal numeral of any length for a number below `bound`. -/
def boundedDecimal? (bound : Nat) (cs : List Char) : Option Nat :=
  if cs ≠ [] ∧ cs.all isDigit ∧ decimal cs < bound then some (decimal cs) else none

/-- The shortest decimal numeral. -/
def writeDecimal (n : Nat) : List Char := Nat.toDigits 10 n

/-- The shortest hexadecimal numeral, in lower case. -/
def writeHexadecimal (n : Nat) : List Char := Nat.toDigits 16 n

end PeerAccess.Text
