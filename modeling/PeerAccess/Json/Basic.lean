import PeerAccess.Text.Numeral

/-!
# JSON values

A JSON string is kept as its code points, because an escape may spell half of a surrogate pair.
Such a string is well formed but is no text (`textOf?`).
-/

namespace PeerAccess

inductive Json
  | null
  | bool (value : Bool)
  /-- A number as it is written. -/
  | number (literal : List Char)
  | string (points : List Nat)
  | array (items : List Json)
  | object (members : List (List Nat × Json))

namespace Json

def isLead (n : Nat) : Bool := 0xD800 ≤ n && n < 0xDC00

def isTrail (n : Nat) : Bool := 0xDC00 ≤ n && n < 0xE000

/-- The character that a surrogate pair stands for. -/
def paired (lead trail : Nat) : Char :=
  Char.ofNat (0x10000 + (lead - 0xD800) * 0x400 + (trail - 0xDC00))

/-- The text that the points spell; an unpaired surrogate spells none. -/
def textOf? : List Nat → Option (List Char)
  | [] => some []
  | [n] => if isLead n || isTrail n then none else some [Char.ofNat n]
  | n :: m :: r =>
    if isLead n then
      if isTrail m then (textOf? r).map (paired n m :: ·) else none
    else if isTrail n then none
    else (textOf? (m :: r)).map (Char.ofNat n :: ·)

def pointsOf (s : String) : List Nat := s.toList.map Char.toNat

def ofText (s : String) : Json := string (pointsOf s)

def text? : Json → Option String
  | string ps => (textOf? ps).map String.ofList
  | _ => none

/-- An object with members of these names, in this order. -/
def ofMembers (members : List (String × Json)) : Json :=
  object (members.map fun (k, v) => (pointsOf k, v))

/-- The values of the named fields, for a record that has these fields in this order. An object
gives each at most once, other members do not matter, and all its names are texts. An array gives
the values alone, from the first field on. -/
def fields? (names : List String) : Json → Option (List (Option Json))
  | array items =>
    if items.length ≤ names.length then
      some (items.map some ++ List.replicate (names.length - items.length) none)
    else none
  | object members => do
    let members ← members.mapM fun (k, v) => (textOf? k).map fun k => (String.ofList k, v)
    names.mapM fun n =>
      match members.filter (·.1 == n) with
      | [] => some none
      | [(_, v)] => some (some v)
      | _ => none
  | _ => none

end Json

end PeerAccess
