import PeerAccess.Address.Basic
import PeerAccess.Text.Cut
import PeerAccess.Text.Numeral

/-!
# Printing addresses

IPv6 in lower case, the first longest run of two or more zero segments as `::`, and mapped
addresses with a dotted ending.
-/

namespace PeerAccess

open Text

def Ipv4.print (a : Ipv4) : List Char :=
  join '.' (a.octets.map fun o => writeDecimal o.toNat)

namespace Ipv6

def printSegments (ss : List UInt16) : List Char :=
  join ':' (ss.map fun s => writeHexadecimal s.toNat)

/-- How many zero segments stand from place `i` on. -/
def zerosAt (ss : List UInt16) (i : Nat) : Nat := ((ss.drop i).takeWhile (· == 0)).length

def zeroRuns (ss : List UInt16) : List Nat := (List.range ss.length).map (zerosAt ss)

def longestRun (ss : List UInt16) : Nat := (zeroRuns ss).foldl max 0

/-- The first place where a longest run starts. -/
def longestStart (ss : List UInt16) : Nat := (zeroRuns ss).idxOf (longestRun ss)

/-- The segments with their longest run of zeros left out, if it has two or more. -/
def printShort (ss : List UInt16) : List Char :=
  if longestRun ss < 2 then printSegments ss
  else
    printSegments (ss.take (longestStart ss)) ++ ':' :: ':' ::
      printSegments (ss.drop (longestStart ss + longestRun ss))

def print (a : Ipv6) : List Char :=
  match a.unmapped? with
  | some b => "::ffff:".toList ++ b.print
  | none => printShort a.segments

end Ipv6

def Ip.print : Ip → List Char
  | .v4 a => a.print
  | .v6 a => a.print

instance : ToString Ip := ⟨fun a => String.ofList a.print⟩

end PeerAccess
