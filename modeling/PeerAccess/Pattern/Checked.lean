import PeerAccess.Pattern.Basic

/-!
# Reading patterns by machine

The reader of patterns with everything in it that a machine may refuse: places of arrays, counters
of bounded size, differences, shifts. A text is looked at twice, first for its shape and then for
its numbers, and where the second look trusts the first it still has a way to fail. `Pattern.parse`
has none of this and comes to the same results.
-/

namespace PeerAccess.Pattern.Checked

open Text
open PatternError (Reason)

inductive Fault
  | outOfBounds (index size : Nat)
  | overflow
deriving DecidableEq

/-- Why a text is refused. All but the first are fallbacks for a text of the wrong shape. -/
inductive Refusal
  | known (reason : Reason)
  | badGroup (family : Family) (group : List Char)
  | badLength (digits : List Char)
  | missingLength
deriving DecidableEq

def Refusal.message : Refusal → String
  | known r => r.message
  | badGroup .v4 g => s!"bad IPv4 group '{String.ofList g}'"
  | badGroup .v6 g => s!"bad IPv6 group '{String.ofList g}'"
  | badLength ds => s!"bad prefix length '{String.ofList ds}'"
  | missingLength => "missing prefix length"

inductive Failure
  | fault (fault : Fault)
  | refused (pattern : String) (refusal : Refusal)
deriving DecidableEq

/-! ## Machine operations -/

/-- Some machines have no room for larger counters and places, and none has less. -/
def sizeBound : Nat := 65536

def counted (n : Nat) : Except Failure Nat :=
  if n < sizeBound then .ok n else .error (.fault .overflow)

def minus (a b : Nat) : Except Failure Nat :=
  if b ≤ a then .ok (a - b) else .error (.fault .overflow)

/-- The lowest `8 - n` bits. An octet is shifted by less than its size. -/
def lowOnes (n : Nat) : Except Failure UInt8 :=
  if n < 8 then .ok (0xFF >>> UInt8.ofNat n) else .error (.fault .overflow)

def put (os : Octets) (i : Nat) (o : UInt8) : Except Failure Octets :=
  if i < os.length then .ok (os.set i o) else .error (.fault (.outOfBounds i os.length))

/-- Digits of a number below `bound`, perhaps behind a plus sign. -/
def unsigned? (digit : Char → Bool) (base bound : Nat) (cs : List Char) : Option Nat :=
  let ds := if cs.head? = some '+' then cs.tail else cs
  if ds ≠ [] ∧ ds.all digit ∧ valueIn base ds < bound then some (valueIn base ds) else none

/-! ## The shape -/

/-- Whether there are `count` groups that pass, of which `seen` were there before. -/
def fits (count : Nat) (ok : List Char → Bool) : Nat → List (List Char) → Except Failure Bool
  | seen, [] => .ok (seen == count)
  | seen, g :: gs => do
    let seen ← counted (seen + 1)
    if count < seen || !ok g then return false else fits count ok seen gs

def accepts (k : Kind) (cs : List Char) : Except Failure Bool :=
  match k.shape with
  | .exact => fits k.family.groupCount k.family.isGroup 0 (cs.splitOn k.family.separator)
  | .wildcard =>
    fits k.family.groupCount (fun g => g == star || k.family.isGroup g) 0
      (cs.splitOn k.family.separator)
  | .block =>
    match cut '/' cs with
    | none => .ok false
    | some (address, length) => do
      let ok ← fits k.family.groupCount k.family.isGroup 0 (address.splitOn k.family.separator)
      return ok && isNumeral isDigit 1 k.family.lengthDigits length

/-- The first of the kinds that accepts the text. -/
def classify (cs : List Char) : List Kind → Except Failure (Option Kind)
  | [] => .ok none
  | k :: ks => do
    if ← accepts k cs then return some k else classify cs ks

/-! ## The numbers

`s` is the whole text; a refusal is about it, whatever part was looked at. -/

def refuse {α : Type} (s : String) (r : Refusal) : Except Failure α := .error (.refused s r)

def octet (s : String) (g : List Char) : Except Failure UInt8 :=
  match unsigned? isDigit 10 65536 g with
  | none => refuse s (.badGroup .v4 g)
  | some n => if n < 256 then .ok (UInt8.ofNat n) else refuse s (.known (.groupOutOfRange n))

def hextet (s : String) (g : List Char) : Except Failure UInt16 :=
  match unsigned? isHexDigit 16 65536 g with
  | none => refuse s (.badGroup .v6 g)
  | some n => .ok (UInt16.ofNat n)

/-- Carries `a` along the groups, which are counted from `i`. -/
def enumerate {α : Type} (step : Nat → List Char → α → Except Failure α) :
    Nat → α → List (List Char) → Except Failure α
  | _, a, [] => .ok a
  | i, a, g :: gs => do
    let next ← counted (i + 1)
    enumerate step next (← step i g a) gs

/-- Puts the octets of the group at place `i`. -/
def putGroup (s : String) (f : Family) (i : Nat) (g : List Char) (os : Octets) :
    Except Failure Octets :=
  match f with
  | .v4 => do put os i (← octet s g)
  | .v6 => do
    let h ← hextet s g
    let os ← put os (← counted (i * 2)) (h >>> 8).toUInt8
    put os (← counted (i * 2 + 1)) h.toUInt8

/-- Puts the group at place `i` of a mask and of a value, unless it is a star. -/
def putOpenGroup (s : String) (f : Family) (i : Nat) (g : List Char) (m : Octets × Octets) :
    Except Failure (Octets × Octets) :=
  if g = star then .ok m
  else
    match f with
    | .v4 => do
      let mask ← put m.1 i 0xFF
      let value ← put m.2 i (← octet s g)
      return (mask, value)
    | .v6 => do
      let h ← hextet s g
      let mask ← put m.1 (← counted (i * 2)) 0xFF
      let mask ← put mask (← counted (i * 2 + 1)) 0xFF
      let value ← put m.2 (← counted (i * 2)) (h >>> 8).toUInt8
      let value ← put value (← counted (i * 2 + 1)) h.toUInt8
      return (mask, value)

def zeros (size : Nat) : Octets := List.replicate size 0

def address (s : String) (f : Family) (cs : List Char) : Except Failure Octets :=
  enumerate (putGroup s f) 0 (zeros f.size) (cs.splitOn f.separator)

def openAddress (s : String) (f : Family) (cs : List Char) : Except Failure (Octets × Octets) :=
  enumerate (putOpenGroup s f) 0 (zeros f.size, zeros f.size) (cs.splitOn f.separator)

def splitSlash (s : String) : Except Failure (List Char × List Char) :=
  match cut '/' s.toList with
  | none => refuse s .missingLength
  | some parts => .ok parts

def prefixLength (s : String) (bits : Nat) (ds : List Char) : Except Failure Nat :=
  match unsigned? isDigit 10 4294967296 ds with
  | none => refuse s (.badLength ds)
  | some n => if bits < n then refuse s (.known (.lengthOutOfRange n bits)) else .ok n

/-- Sets the first `n` bits, octet by octet, and leaves the octets after them alone. -/
def setLeading : Octets → Nat → Except Failure Octets
  | [], _ => .ok []
  | _ :: os, n =>
    if 8 ≤ n then do
      let rest ← setLeading os (← minus n 8)
      return 0xFF :: rest
    else do
      let low ← lowOnes n
      return ~~~low :: os

/-! ## The whole text -/

def parse (s : String) : Except Failure Matcher := do
  match ← classify s.toList Kind.all with
  | none => refuse s (.known .unrecognised)
  | some ⟨f, .exact⟩ => return .exact (← address s f s.toList)
  | some ⟨f, .wildcard⟩ =>
    let (mask, value) ← openAddress s f s.toList
    return .masked mask value
  | some ⟨f, .block⟩ =>
    let (written, digits) ← splitSlash s
    let value ← address s f written
    let mask ← setLeading (zeros f.size) (← prefixLength s f.bits digits)
    return .masked mask value

end PeerAccess.Pattern.Checked
