import PeerAccess.Address.Basic
import PeerAccess.Text.Cut
import PeerAccess.Text.Numeral

/-!
# The grammars of patterns

Six kinds of pattern, three for each address family: a written address, an address with `*` in
place of groups, and a block, which is an address with a prefix length. A kind looks only at the
shape of the text, and the first one that fits takes the text apart; `Pattern.Basic` reads the
numbers.
-/

namespace PeerAccess

open Text

inductive Family
  | v4
  | v6
deriving DecidableEq

namespace Family

def separator : Family → Char
  | v4 => '.'
  | v6 => ':'

/-- How many groups an address has. Patterns never leave groups out. -/
def groupCount : Family → Nat
  | v4 => 4
  | v6 => 8

def octetsPerGroup : Family → Nat
  | v4 => 1
  | v6 => 2

/-- Octets of an address. -/
def size (f : Family) : Nat := f.groupCount * f.octetsPerGroup

/-- Bits of an address. -/
def bits (f : Family) : Nat := 8 * f.size

def isGroup : Family → List Char → Bool
  | v4 => isNumeral isDigit 1 3
  | v6 => isNumeral isHexDigit 1 4

def groupValue : Family → List Char → Nat
  | v4 => decimal
  | v6 => hexadecimal

/-- Groups are below this number. -/
def groupBound : Family → Nat
  | v4 => 256
  | v6 => 65536

def groupOctets : Family → Nat → Octets
  | v4, n => [UInt8.ofNat n]
  | v6, n => [UInt8.ofNat (n / 256), UInt8.ofNat (n % 256)]

/-- A prefix length has no more digits than this. -/
def lengthDigits : Family → Nat
  | v4 => 2
  | v6 => 3

end Family

inductive Shape
  | exact
  | wildcard
  | block
deriving DecidableEq

structure Kind where
  family : Family
  shape : Shape
deriving DecidableEq

/-- The group that stands for any value. -/
def star : List Char := ['*']

/-- A text of the right shape, taken apart: its groups, and for a block its prefix length. -/
structure Written where
  kind : Kind
  groups : List (List Char)
  length : List Char := []
deriving DecidableEq

/-- The groups of `cs`, if there are as many as an address has and each passes. -/
def groupsWhere (f : Family) (ok : List Char → Bool) (cs : List Char) : Option (List (List Char)) :=
  let groups := cs.splitOn f.separator
  if groups.length = f.groupCount ∧ groups.all ok then some groups else none

namespace Kind

/-- The order in which kinds are tried. A written address would also pass as a wildcard one. -/
def all : List Kind :=
  [⟨.v4, .exact⟩, ⟨.v4, .wildcard⟩, ⟨.v4, .block⟩, ⟨.v6, .exact⟩, ⟨.v6, .wildcard⟩, ⟨.v6, .block⟩]

def scan (k : Kind) (cs : List Char) : Option Written :=
  match k.shape with
  | .exact => (groupsWhere k.family k.family.isGroup cs).map fun gs => { kind := k, groups := gs }
  | .wildcard =>
    (groupsWhere k.family (fun g => g == star || k.family.isGroup g) cs).map fun gs =>
      { kind := k, groups := gs }
  | .block => do
    let (address, length) ← cut '/' cs
    let gs ← groupsWhere k.family k.family.isGroup address
    if isNumeral isDigit 1 k.family.lengthDigits length then
      some { kind := k, groups := gs, length := length }
    else none

def accepts (k : Kind) (cs : List Char) : Bool := (k.scan cs).isSome

theorem kind_of_scan {k : Kind} {cs : List Char} {w : Written} (h : k.scan cs = some w) :
    w.kind = k := by
  obtain ⟨f, shape⟩ := k
  cases shape with
  | exact | wildcard =>
    simp only [scan, Option.map_eq_some_iff] at h
    obtain ⟨_, _, rfl⟩ := h
    rfl
  | block =>
    simp only [scan, Option.bind_eq_bind, Option.bind_eq_some_iff] at h
    obtain ⟨⟨a, l⟩, _, gs, _, h⟩ := h
    split at h
    · obtain rfl := Option.some.inj h
      rfl
    · exact absurd h (by simp)

end Kind

/-- The first kind that accepts the text takes it apart. -/
def Written.scan (cs : List Char) : Option Written := Kind.all.findSome? (·.scan cs)

/-- The first kind that accepts the text. -/
def Kind.classify (cs : List Char) : Option Kind := Kind.all.find? (·.accepts cs)

theorem Kind.map_kind_findSome? (ks : List Kind) (cs : List Char) :
    (ks.findSome? (·.scan cs)).map (·.kind) = ks.find? (·.accepts cs) := by
  induction ks with
  | nil => rfl
  | cons k ks ih =>
    rw [List.findSome?_cons, List.find?_cons]
    cases h : k.scan cs with
    | none => simpa [accepts, h] using ih
    | some w => simp [accepts, h, kind_of_scan h]

/-- Taking apart and classifying agree on the kind. -/
theorem Kind.map_kind_scan (cs : List Char) : (Written.scan cs).map (·.kind) = Kind.classify cs :=
  Kind.map_kind_findSome? Kind.all cs

end PeerAccess
