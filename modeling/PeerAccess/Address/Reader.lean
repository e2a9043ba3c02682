import PeerAccess.Address.Basic
import PeerAccess.Text.Cut
import PeerAccess.Text.Numeral

/-!
# Reading addresses

Dotted IPv4 without leading zeros, and IPv6 with at most one `::` for one or more zero segments and
an optional dotted ending. The whole text has to be an address.
-/

namespace PeerAccess

open Text Address

namespace Ipv4

/-- One number of a dotted address, written without a leading zero. -/
def octet? (cs : List Char) : Option UInt8 :=
  if isNumeral isDigit 1 3 cs ∧ (cs.length = 1 ∨ cs.head? ≠ some '0') ∧ decimal cs < 256 then
    some (UInt8.ofNat (decimal cs))
  else none

def ofOctets? (os : Octets) : Option Ipv4 := if h : os.length = 4 then some ⟨os, h⟩ else none

def read (cs : List Char) : Option Ipv4 := ((cs.splitOn '.').mapM octet?).bind ofOctets?

end Ipv4

namespace Ipv6

def segment? (cs : List Char) : Option UInt16 :=
  if isNumeral isHexDigit 1 4 cs then some (UInt16.ofNat (hexadecimal cs)) else none

/-- The segments of a list of groups; where `dotted`, the last group may be an IPv4 address. -/
def segments? (dotted : Bool) : List (List Char) → Option (List UInt16)
  | [] => some []
  | [g] =>
    match segment? g with
    | some s => some [s]
    | none => if dotted then (Ipv4.read g).map fun a => toSegments a.octets else none
  | g :: gs => do
    let s ← segment? g
    let rest ← segments? dotted gs
    return s :: rest

/-- One side of `::`, which may be empty. -/
def side? (dotted : Bool) (cs : List Char) : Option (List UInt16) :=
  if cs = [] then some [] else segments? dotted (cs.splitOn ':')

/-- What stands before the first `::`, and what stands after it. -/
def cutGap : List Char → Option (List Char × List Char)
  | ':' :: ':' :: r => some ([], r)
  | c :: r => (cutGap r).map fun (a, b) => (c :: a, b)
  | [] => none

def ofSegments? (ss : List UInt16) : Option Ipv6 := if h : ss.length = 8 then some ⟨ss, h⟩ else none

/-- Zeros in the place of `::`, one at least. -/
def fillGap? (before after : List UInt16) : Option Ipv6 :=
  if before.length + after.length < 8 then
    ofSegments? (before ++ List.replicate (8 - before.length - after.length) 0 ++ after)
  else none

def read (cs : List Char) : Option Ipv6 :=
  match cutGap cs with
  | none => (segments? true (cs.splitOn ':')).bind ofSegments?
  | some (l, r) => do
    let before ← side? false l
    let after ← side? true r
    fillGap? before after

end Ipv6

namespace Ip

def read (cs : List Char) : Option Ip :=
  match Ipv4.read cs with
  | some a => some (.v4 a)
  | none => (Ipv6.read cs).map .v6

/-- The address that the whole of `s` spells. -/
def parse? (s : String) : Option Ip := read s.toList

end Ip

end PeerAccess
