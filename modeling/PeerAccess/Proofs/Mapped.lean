import PeerAccess.Address.Basic

/-!
# Mapped addresses

The IPv6 addresses in `::ffff:0:0/96`, told by their octets. `Ip.canonical` leaves none of them.
-/

namespace PeerAccess

open Address

/-- The first twelve octets of a mapped address. -/
def mappedPrefix : Octets := List.replicate 10 0 ++ [0xFF, 0xFF]

/-! ## Segments and octets -/

theorem toNat_high (s : UInt16) : (s >>> 8).toUInt8.toNat = s.toNat / 256 := by
  have := s.toNat_lt
  simp [Nat.shiftRight_eq_div_pow]
  omega

theorem toNat_low (s : UInt16) : s.toUInt8.toNat = s.toNat % 256 := by simp

theorem toNat_segment (hi lo : UInt8) :
    (hi.toUInt16 <<< 8 ||| lo.toUInt16).toNat = 256 * hi.toNat + lo.toNat := by
  have hhi := hi.toNat_lt
  have hor := Nat.shiftLeft_add_eq_or_of_lt lo.toNat_lt hi.toNat
  simp only [UInt16.toNat_or, UInt16.toNat_shiftLeft, UInt8.toNat_toUInt16]
  rw [Nat.mod_eq_of_lt]
  · exact hor.symm.trans (by rw [Nat.shiftLeft_eq]; omega)
  · rw [Nat.shiftLeft_eq]
    simp
    omega

theorem segmentOctets_segment (hi lo : UInt8) :
    segmentOctets (hi.toUInt16 <<< 8 ||| lo.toUInt16) = [hi, lo] := by
  have hlo := lo.toNat_lt
  unfold segmentOctets
  congr 1
  · rw [← UInt8.toNat_inj, toNat_high, toNat_segment]
    omega
  · congr 1
    rw [← UInt8.toNat_inj, toNat_low, toNat_segment]
    omega

theorem segmentOctets_injective {s t : UInt16} (h : segmentOctets s = segmentOctets t) : s = t := by
  simp only [segmentOctets, List.cons.injEq, and_true] at h
  have hhigh := congrArg UInt8.toNat h.1
  have hlow := congrArg UInt8.toNat h.2
  rw [toNat_high, toNat_high] at hhigh
  rw [toNat_low, toNat_low] at hlow
  rw [← UInt16.toNat_inj]
  omega

theorem flatMap_segmentOctets_injective {ss ts : List UInt16}
    (h : ss.flatMap segmentOctets = ts.flatMap segmentOctets) : ss = ts := by
  induction ss generalizing ts with
  | nil => cases ts <;> simp_all [segmentOctets]
  | cons s ss ih =>
    cases ts with
    | nil => simp [segmentOctets] at h
    | cons t ts =>
      rw [List.flatMap_cons, List.flatMap_cons] at h
      obtain ⟨hs, hss⟩ := List.append_inj h rfl
      rw [segmentOctets_injective hs, ih hss]

theorem flatMap_toSegments_four {os : Octets} (h : os.length = 4) :
    (toSegments os).flatMap segmentOctets = os := by
  match os, h with
  | [a, b, c, d], _ => simp [toSegments, segmentOctets_segment]

/-! ## The mapped range -/

theorem Ipv4.octets_toMapped (v : Ipv4) : v.toMapped.octets = mappedPrefix ++ v.octets := by
  unfold Ipv4.toMapped Ipv6.octets
  rw [List.flatMap_append, flatMap_toSegments_four v.length_octets]
  rfl

namespace Ipv6

theorem octets_eq (a : Ipv6) :
    a.octets = (a.segments.take 6).flatMap segmentOctets ++
      (a.segments.drop 6).flatMap segmentOctets := by
  unfold octets
  rw [← List.flatMap_append, List.take_append_drop]

theorem unmapped?_eq_some_iff {a : Ipv6} {v : Ipv4} :
    a.unmapped? = some v ↔ a.octets = mappedPrefix ++ v.octets := by
  have hhead : mappedPrefix = mappedHead.flatMap segmentOctets := rfl
  unfold unmapped?
  constructor
  · intro h
    split at h
    · rename_i htake
      obtain rfl := Option.some.inj h
      rw [octets_eq, htake, hhead]
    · cases h
  · intro h
    rw [octets_eq, hhead] at h
    obtain ⟨htake, hdrop⟩ := List.append_inj h
      (by rw [length_flatMap_segmentOctets, List.length_take, a.length_segments]; rfl)
    rw [if_pos (flatMap_segmentOctets_injective htake)]
    obtain ⟨os, hlen⟩ := v
    simp only [Option.some.injEq, Ipv4.mk.injEq]
    exact hdrop

theorem mapped_iff {a : Ipv6} : mappedPrefix <+: a.octets ↔ ∃ v, a.unmapped? = some v := by
  simp only [unmapped?_eq_some_iff]
  constructor
  · rintro ⟨os, hos⟩
    have hlen : os.length = 4 := by
      have := congrArg List.length hos
      simp [mappedPrefix] at this
      omega
    exact ⟨⟨os, hlen⟩, hos.symm⟩
  · rintro ⟨v, hv⟩
    exact ⟨v.octets, hv.symm⟩

end Ipv6

namespace Ip

theorem canonical_of_mapped {a : Ipv6} {v : Ipv4} (h : a.octets = mappedPrefix ++ v.octets) :
    canonical (v6 a) = v4 v := by
  rw [canonical, Ipv6.unmapped?_eq_some_iff.mpr h]
  rfl

theorem canonical_of_not_mapped {a : Ipv6} (h : ¬ mappedPrefix <+: a.octets) :
    canonical (v6 a) = v6 a := by
  rw [Ipv6.mapped_iff, not_exists] at h
  rw [canonical, Option.eq_none_iff_forall_ne_some.mpr h]
  rfl

/-- No canonical address is mapped. -/
theorem not_mapped_canonical (ip : Ip) : ¬ mappedPrefix <+: ip.canonical.octets := by
  have hshort : ∀ v : Ipv4, ¬ mappedPrefix <+: v.octets := by
    intro v h
    have := h.length_le
    rw [v.length_octets] at this
    simp [mappedPrefix] at this
  cases ip with
  | v4 v => exact hshort v
  | v6 a =>
    by_cases h : mappedPrefix <+: a.octets
    · obtain ⟨v, hv⟩ := Ipv6.mapped_iff.mp h
      rw [canonical_of_mapped (Ipv6.unmapped?_eq_some_iff.mp hv)]
      exact hshort v
    · rw [canonical_of_not_mapped h]
      exact h

end Ip

end PeerAccess
