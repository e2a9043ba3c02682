/-!
# Addresses

IPv4 and IPv6 addresses as their octets and segments. An IPv4 address also has an IPv6 form, the
mapped one (`::ffff:a.b.c.d`); `Ip.canonical` takes it back.
-/

namespace PeerAccess

abbrev Octets := List UInt8

/-- The number that the octets spell, the first one highest. -/
def Octets.value (os : Octets) : Nat := os.foldl (fun n o => 256 * n + o.toNat) 0

namespace Address

/-- The two octets of a segment, the high one first. -/
def segmentOctets (s : UInt16) : Octets := [(s >>> 8).toUInt8, s.toUInt8]

/-- Two octets make one segment. -/
def toSegments : Octets → List UInt16
  | hi :: lo :: r => (hi.toUInt16 <<< 8 ||| lo.toUInt16) :: toSegments r
  | _ => []

theorem length_flatMap_segmentOctets (ss : List UInt16) :
    (ss.flatMap segmentOctets).length = 2 * ss.length := by
  induction ss with
  | nil => rfl
  | cons s r ih => simp [segmentOctets, ih]; omega

theorem length_toSegments_four {os : Octets} (h : os.length = 4) : (toSegments os).length = 2 := by
  match os, h with
  | [_, _, _, _], _ => rfl

end Address

open Address

structure Ipv4 where
  octets : Octets
  length_octets : octets.length = 4
deriving DecidableEq

structure Ipv6 where
  segments : List UInt16
  length_segments : segments.length = 8
deriving DecidableEq

inductive Ip
  | v4 (address : Ipv4)
  | v6 (address : Ipv6)
deriving DecidableEq

def Ipv4.loopback : Ipv4 := ⟨[127, 0, 0, 1], rfl⟩

/-- The first six segments of a mapped address. -/
def mappedHead : List UInt16 := [0, 0, 0, 0, 0, 0xFFFF]

/-- The IPv6 form of an IPv4 address. -/
def Ipv4.toMapped (a : Ipv4) : Ipv6 where
  segments := mappedHead ++ toSegments a.octets
  length_segments := by
    simp [mappedHead, length_toSegments_four a.length_octets]

namespace Ipv6

def octets (a : Ipv6) : Octets := a.segments.flatMap segmentOctets

@[simp] theorem length_octets (a : Ipv6) : a.octets.length = 16 := by
  rw [octets, length_flatMap_segmentOctets, a.length_segments]

/-- The IPv4 address that this one is the mapped form of, if it is one. -/
def unmapped? (a : Ipv6) : Option Ipv4 :=
  if a.segments.take 6 = mappedHead then
    some ⟨(a.segments.drop 6).flatMap segmentOctets, by
      rw [length_flatMap_segmentOctets, List.length_drop, a.length_segments]⟩
  else none

end Ipv6

namespace Ip

/-- A mapped address counts as the IPv4 address in it. -/
def canonical : Ip → Ip
  | v4 a => v4 a
  | v6 a => (a.unmapped?.map v4).getD (v6 a)

def octets : Ip → Octets
  | v4 a => a.octets
  | v6 a => a.octets

end Ip

end PeerAccess
