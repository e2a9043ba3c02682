import PeerAccess.Matcher
import PeerAccess.Pattern.Grammar

/-!
# Patterns

A pattern says which peers a rule is about. Reading one checks the shape first, then the groups
from the left, then the prefix length.
-/

namespace PeerAccess

open Text

inductive Pattern
  | exact (family : Family) (groups : List Nat)
  /-- Groups without a value may be anything. -/
  | wildcard (family : Family) (groups : List (Option Nat))
  /-- The addresses that share their first `length` bits with the written one. -/
  | block (family : Family) (groups : List Nat) (length : Nat)
deriving DecidableEq

/-- Why a text is no pattern. -/
inductive PatternError.Reason
  | unrecognised
  | groupOutOfRange (value : Nat)
  | lengthOutOfRange (length bits : Nat)
deriving DecidableEq

structure PatternError where
  pattern : String
  reason : PatternError.Reason
deriving DecidableEq

namespace PatternError

def Reason.message : Reason → String
  | unrecognised => "not a recognised IPv4 or IPv6 peer pattern"
  | groupOutOfRange value => s!"IPv4 group {value} is out of range (0-255)"
  | lengthOutOfRange length bits => s!"prefix length {length} is longer than {bits} bits"

def message (e : PatternError) : String :=
  s!"Invalid peer pattern '{e.pattern}': {e.reason.message}"

end PatternError

open PatternError (Reason)

namespace Pattern

def readGroup (f : Family) (g : List Char) : Except Reason Nat :=
  if f.groupValue g < f.groupBound then .ok (f.groupValue g)
  else .error (.groupOutOfRange (f.groupValue g))

def readOpenGroup (f : Family) (g : List Char) : Except Reason (Option Nat) :=
  if g = star then .ok none else (readGroup f g).map some

def readLength (f : Family) (cs : List Char) : Except Reason Nat :=
  if decimal cs ≤ f.bits then .ok (decimal cs) else .error (.lengthOutOfRange (decimal cs) f.bits)

/-- The numbers in a text of the right shape. -/
def ofWritten (w : Written) : Except Reason Pattern :=
  let f := w.kind.family
  match w.kind.shape with
  | .exact => do return exact f (← w.groups.mapM (readGroup f))
  | .wildcard => do return wildcard f (← w.groups.mapM (readOpenGroup f))
  | .block => do return block f (← w.groups.mapM (readGroup f)) (← readLength f w.length)

def read (cs : List Char) : Except Reason Pattern :=
  match Written.scan cs with
  | none => .error .unrecognised
  | some w => ofWritten w

/-- The pattern that the whole of `s` spells. -/
def parse (s : String) : Except PatternError Pattern := (read s.toList).mapError (⟨s, ·⟩)

def groupsOctets (f : Family) (groups : List Nat) : Octets := groups.flatMap f.groupOctets

/-- All bits of a group that has a value, none of one that has not. -/
def openGroupMask (f : Family) : Option Nat → Octets
  | some _ => List.replicate f.octetsPerGroup 0xFF
  | none => List.replicate f.octetsPerGroup 0

def openGroupOctets (f : Family) : Option Nat → Octets
  | some n => f.groupOctets n
  | none => List.replicate f.octetsPerGroup 0

/-- The written address of a block is compared as it is, bits past the prefix included. -/
def matcher : Pattern → Matcher
  | exact f gs => .exact (groupsOctets f gs)
  | wildcard f gs => .masked (gs.flatMap (openGroupMask f)) (gs.flatMap (openGroupOctets f))
  | block f gs n => .masked (leadingMask f.size n) (groupsOctets f gs)

/-- A block whose address has a bit set past the prefix, so that no address fits it. -/
def hasHostBits : Pattern → Bool
  | block f gs n => hasBitOutside (leadingMask f.size n) (groupsOctets f gs)
  | _ => false

end Pattern

end PeerAccess
