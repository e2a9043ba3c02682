import PeerAccess.Proofs.Compiling
import PeerAccess.Proofs.History
import PeerAccess.Proofs.Mapped

/-!
# Address families

A matcher accepts octets of its own length only, so the rules for one family have no say on the
other. Mapped addresses are judged as IPv4, and IPv6 rules about them have no say at all.
-/

namespace PeerAccess

/-- What some pattern compiles to. -/
def Matcher.Compiled (m : Matcher) : Prop := ∃ s p, Pattern.parse s = .ok p ∧ p.matcher = m

/-- The rules about addresses of `n` octets, and the default. -/
def Policy.only (n : Nat) (p : Policy) : Policy :=
  p.replace (p.rules.filter (·.matcher.size == n))

/-! ## Compiled matchers -/

theorem Compiles.size_eq {c : Content} {m : Matcher} (h : Compiles c m) :
    m.size = c.family.form.size := by
  cases h with
  | exact _ _ hvalue => exact hvalue.length
  | wildcard _ _ hmask | block _ hmask => exact hmask.length

theorem Matcher.Compiled.size_eq {m : Matcher} (h : m.Compiled) : m.size = 4 ∨ m.size = 16 := by
  obtain ⟨s, p, hp, rfl⟩ := h
  obtain ⟨c, hc, rfl⟩ := parse_eq_ok_iff.mp hp
  rw [(compiles_ofContent hc.wellFormed).size_eq]
  cases c.family <;> simp [Family.form, AddressForm.size]

theorem Rule.Compiled.matcher {r : Rule} (h : r.Compiled) : r.matcher.Compiled := by
  obtain ⟨e, he⟩ := h
  simp only [Entry.compile, Rule.compile, map_eq_ok_iff] at he
  obtain ⟨p, hp, rfl⟩ := he
  exact ⟨e.pattern, p, hp, rfl⟩

/-! ## One family at a time -/

namespace Policy

theorem allows_only (p : Policy) (x : Octets) : (p.only x.length).allows x = p.allows x := by
  apply allows_filter
  intro r _ hr
  rw [Matcher.length_eq_size_of_accepts hr, beq_self_eq_true]

theorem admits_v4 (p : Policy) (a : Ipv4) : p.admits (.v4 a) = (p.only 4).allows a.octets := by
  rw [← a.length_octets, allows_only]
  rfl

theorem admits_mapped {a : Ipv6} {v : Ipv4} (p : Policy) (h : a.octets = mappedPrefix ++ v.octets) :
    p.admits (.v6 a) = p.admits (.v4 v) := by
  unfold admits
  rw [Ip.canonical_of_mapped h]
  rfl

theorem admits_of_mapped (p : Policy) (a : Ipv6) (h : mappedPrefix <+: a.octets) :
    p.admits (.v6 a) = (p.only 4).allows (a.octets.drop 12) := by
  obtain ⟨v, hv⟩ := Ipv6.mapped_iff.mp h
  rw [Ipv6.unmapped?_eq_some_iff] at hv
  rw [p.admits_mapped hv, p.admits_v4, hv]
  rfl

theorem admits_v6 (p : Policy) (a : Ipv6) (h : ¬ mappedPrefix <+: a.octets) :
    p.admits (.v6 a) = (p.only 16).allows a.octets := by
  unfold admits
  rw [Ip.canonical_of_not_mapped h, ← a.length_octets, allows_only]
  rfl

theorem admits_insert {p : Policy} {before rest : List Rule} {r : Rule}
    (hrules : p.rules = before ++ rest) (hmapped : ∀ x, r.accepts x = true → mappedPrefix <+: x)
    (ip : Ip) :
    (p.replace (before ++ r :: rest)).admits ip = p.admits ip := by
  have hr : r.accepts ip.canonical.octets = false := by
    rw [Bool.eq_false_iff]
    exact fun hx => Ip.not_mapped_canonical ip (hmapped _ hx)
  exact allows_insert hrules hr

theorem allows_other_length {p : Policy} (h : ∀ r ∈ p.rules, r.matcher.Compiled) {x : Octets}
    (hfour : x.length ≠ 4) (hsixteen : x.length ≠ 16) : p.allows x = p.defaultAllow := by
  apply allows_of_no_decider
  rw [decider_eq_none_iff]
  intro r hr
  rw [Bool.eq_false_iff]
  intro hx
  have hlen := Matcher.length_eq_size_of_accepts hx
  rcases (h r hr).size_eq with hsize | hsize
  · exact hfour (hlen.trans hsize)
  · exact hsixteen (hlen.trans hsize)

/-- A peer is judged by the rules of its own family, and a mapped one by those for IPv4. -/
theorem families_isolated {p : Policy} (h : ∀ r ∈ p.rules, r.matcher.Compiled) :
    (∀ a, p.admits (.v4 a) = true ↔ (p.only 4).FirstMatchAllows a.octets) ∧
      (∀ a, mappedPrefix <+: a.octets →
        (p.admits (.v6 a) = true ↔ (p.only 4).FirstMatchAllows (a.octets.drop 12))) ∧
      (∀ a, ¬ mappedPrefix <+: a.octets →
        (p.admits (.v6 a) = true ↔ (p.only 16).FirstMatchAllows a.octets)) ∧
      (∀ a, p.admits (.v6 a.toMapped) = p.admits (.v4 a)) ∧
      (∀ q : Policy, q.only 4 = p.only 4 → (∀ a, q.admits (.v4 a) = p.admits (.v4 a)) ∧
        ∀ a, mappedPrefix <+: a.octets → q.admits (.v6 a) = p.admits (.v6 a)) ∧
      (∀ q : Policy, q.only 16 = p.only 16 →
        ∀ a, ¬ mappedPrefix <+: a.octets → q.admits (.v6 a) = p.admits (.v6 a)) ∧
      (∀ before r rest, p.rules = before ++ rest →
        (∀ x, r.accepts x = true → mappedPrefix <+: x) →
        ∀ ip, (p.replace (before ++ r :: rest)).admits ip = p.admits ip) ∧
      ∀ x, x.length ≠ 4 → x.length ≠ 16 → p.allows x = p.defaultAllow := by
  refine ⟨?_, ?_, ?_, ?_, ?_, ?_, ?_, ?_⟩
  · intro a
    rw [p.admits_v4, allows_iff]
  · intro a ha
    rw [p.admits_of_mapped a ha, allows_iff]
  · intro a ha
    rw [p.admits_v6 a ha, allows_iff]
  · intro a
    exact p.admits_mapped a.octets_toMapped
  · intro q hq
    constructor
    · intro a
      rw [q.admits_v4, hq, p.admits_v4]
    · intro a ha
      rw [q.admits_of_mapped a ha, hq, p.admits_of_mapped a ha]
  · intro q hq a ha
    rw [q.admits_v6 a ha, hq, p.admits_v6 a ha]
  · intro before r rest hrules hmapped
    exact admits_insert hrules hmapped
  · intro x hfour hsixteen
    exact allows_other_length h hfour hsixteen

theorem mapped_rule_without_say :
    (∀ r ∈ [(⟨.deny, "1.2.3.4", .exact [1, 2, 3, 4]⟩ : Rule)], r.matcher.Compiled) ∧
      ∀ ip,
        admits
            { rules :=
                [⟨.allow, "0:0:0:0:0:ffff:102:304", .exact (mappedPrefix ++ [1, 2, 3, 4])⟩,
                  ⟨.deny, "1.2.3.4", .exact [1, 2, 3, 4]⟩] } ip =
          admits { rules := [⟨.deny, "1.2.3.4", .exact [1, 2, 3, 4]⟩] } ip := by
  have hcompiled : ∀ r ∈ [(⟨.deny, "1.2.3.4", .exact [1, 2, 3, 4]⟩ : Rule)],
      r.matcher.Compiled := by
    intro r hr
    obtain rfl := List.mem_singleton.mp hr
    exact ⟨"1.2.3.4", .exact .v4 [1, 2, 3, 4], rfl, rfl⟩
  obtain ⟨_, _, _, _, _, _, hinsert, _⟩ :=
    families_isolated (p := { rules := [⟨.deny, "1.2.3.4", .exact [1, 2, 3, 4]⟩] }) hcompiled
  refine ⟨hcompiled, hinsert [] _ _ rfl fun x hx => ?_⟩
  simp only [Rule.accepts, Matcher.accepts, beq_iff_eq] at hx
  exact ⟨_, hx⟩

end Policy

end PeerAccess
