import PeerAccess.Address.Printer
import PeerAccess.Address.Reader

/-!
# Endpoints

An address with a port, as a listener or a peer has it: `1.2.3.4:80`, `[::1]:80`, `[fe80::1%2]:80`.
An IPv6 endpoint may name the scope of its address; scope 0 is the same as none.
-/

namespace PeerAccess

open Text

inductive Endpoint
  | v4 (address : Ipv4) (port : UInt16)
  | v6 (address : Ipv6) (scope : UInt32) (port : UInt16)
deriving DecidableEq

namespace Endpoint

def ip : Endpoint → Ip
  | v4 a _ => .v4 a
  | v6 a _ _ => .v6 a

def port : Endpoint → UInt16
  | v4 _ p => p
  | v6 _ _ p => p

def withPort (p : UInt16) : Endpoint → Endpoint
  | v4 a _ => v4 a p
  | v6 a s _ => v6 a s p

def readPort (cs : List Char) : Option UInt16 := (boundedDecimal? UInt16.size cs).map UInt16.ofNat

def readScope (cs : List Char) : Option UInt32 := (boundedDecimal? UInt32.size cs).map UInt32.ofNat

/-- What stands between the brackets: an address, and a scope after `%`. -/
def readScoped (cs : List Char) : Option (Ipv6 × UInt32) :=
  match cut '%' cs with
  | none => (Ipv6.read cs).map (·, 0)
  | some (a, s) => do return (← Ipv6.read a, ← readScope s)

def readV4 (cs : List Char) : Option Endpoint := do
  let (a, p) ← cut ':' cs
  return v4 (← Ipv4.read a) (← readPort p)

def readV6 : List Char → Option Endpoint
  | '[' :: r => do
    let (inside, after) ← cut ']' r
    let (a, s) ← readScoped inside
    match after with
    | ':' :: p => return v6 a s (← readPort p)
    | _ => none
  | _ => none

def read (cs : List Char) : Option Endpoint :=
  match readV4 cs with
  | some e => some e
  | none => readV6 cs

/-- The endpoint that the whole of `s` spells. -/
def parse? (s : String) : Option Endpoint := read s.toList

def print : Endpoint → List Char
  | v4 a p => a.print ++ ':' :: writeDecimal p.toNat
  | v6 a s p =>
    let scope := if s = 0 then [] else '%' :: writeDecimal s.toNat
    '[' :: a.print ++ scope ++ ']' :: ':' :: writeDecimal p.toNat

instance : ToString Endpoint := ⟨fun e => String.ofList e.print⟩

end Endpoint

end PeerAccess
