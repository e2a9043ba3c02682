import PeerAccess.Proofs.Families
import PeerAccess.Proofs.PatternText

/-!
# Policies written down

A rule keeps the text that it was compiled from, and that text compiles to the same rule at any
time. So a policy in use can be written down, as a declaration or as rule flags, and read back.
-/

namespace PeerAccess

open Text

/-! ## Compiled rules -/

namespace Rule

theorem compile_eq_ok_iff {a : Action} {s : String} {r : Rule} :
    compile a s = .ok r ↔
      (Pattern.parse s).map Pattern.matcher = .ok r.matcher ∧ r.action = a ∧ r.pattern = s := by
  simp only [compile, map_eq_ok_iff]
  constructor
  · rintro ⟨p, hp, rfl⟩
    exact ⟨⟨p, hp, rfl⟩, rfl, rfl⟩
  · rintro ⟨⟨p, hp, hm⟩, rfl, rfl⟩
    exact ⟨p, hp, by rw [hm]⟩

/-- The texts of a rule are the entry that it came from. -/
theorem Compiled.compile_eq {r : Rule} (h : r.Compiled) : compile r.action r.pattern = .ok r := by
  obtain ⟨⟨a, s⟩, he⟩ := h
  obtain ⟨_, rfl, rfl⟩ := compile_eq_ok_iff.mp he
  exact he

theorem Compiled.parse_eq {r : Rule} (h : r.Compiled) :
    (Pattern.parse r.pattern).map Pattern.matcher = .ok r.matcher :=
  (compile_eq_ok_iff.mp h.compile_eq).1

end Rule

theorem Compiles.length_value {c : Content} {mask value : Octets}
    (h : Compiles c (.masked mask value)) : mask.length = value.length := by
  cases h with
  | wildcard _ _ hmask hvalue | block _ hmask hvalue =>
    exact hmask.length.trans hvalue.length.symm

theorem Matcher.Compiled.length_value {m : Matcher} (h : m.Compiled) {mask value : Octets}
    (hm : m = .masked mask value) : mask.length = value.length := by
  obtain ⟨s, p, hp, rfl⟩ := h
  obtain ⟨c, hc, rfl⟩ := parse_eq_ok_iff.mp hp
  exact (hm ▸ compiles_ofContent hc.wellFormed).length_value

/-! ## Declarations -/

theorem Policy.compile_toDeclaration {p : Policy} (h : ∀ r ∈ p.rules, r.Compiled) :
    p.toDeclaration.compile = .ok p.rules := by
  unfold Declaration.compile toDeclaration
  rw [mapM_eq_ok_iff, List.forall₂_map_left_iff, List.forall₂_same]
  exact fun r hr => (h r hr).compile_eq

theorem Declaration.validate_eq_ok_iff {d : Declaration} :
    d.validate = .ok () ↔ ∃ rs, d.compile = .ok rs := by
  unfold validate
  rw [map_eq_ok_iff]
  simp

theorem Declaration.parse_of_compile {d : Declaration} {rs : List Rule} (h : d.compile = .ok rs) :
    ∀ e ∈ d.entries, ∃ p, Pattern.parse e.pattern = .ok p := by
  intro e he
  obtain ⟨r, _, hcompile⟩ := exists_partner (mapM_eq_ok_iff.mp h) he
  simp only [Entry.compile, Rule.compile, map_eq_ok_iff] at hcompile
  obtain ⟨p, hp, _⟩ := hcompile
  exact ⟨p, hp⟩

/-! ## Rule flags -/

/-- The entries as `--rule` flags, one after the other. -/
def Declaration.toFlags (d : Declaration) : RuleFlags where
  rules := d.entries.map Entry.toFlag
  defaultAllow := d.defaultAllow

theorem Declaration.unchecked_toFlags {d : Declaration}
    (h : ∀ e ∈ d.entries, trim e.pattern.toList = e.pattern.toList) :
    d.toFlags.unchecked = .ok d := by
  have hread : (d.entries.map Entry.toFlag).mapM Entry.ofFlag = .ok d.entries := by
    rw [mapM_eq_ok_iff, List.forall₂_map_left_iff, List.forall₂_same]
    exact fun e he => Entry.ofFlag_toFlag (h e he)
  simp [RuleFlags.unchecked, RuleFlags.entries, toFlags, hread, Declaration.entriesFor]

theorem RuleFlags.toDeclaration_eq_ok_iff {f : RuleFlags} {d : Declaration} :
    f.toDeclaration = .ok d ↔ f.unchecked = .ok d ∧ ∃ rs, d.compile = .ok rs := by
  simp only [toDeclaration, bind_eq_ok_iff, pure_eq_ok_iff, mapError_eq_ok_iff]
  constructor
  · rintro ⟨d', hd, u, hvalid, rfl⟩
    exact ⟨hd, Declaration.validate_eq_ok_iff.mp hvalid⟩
  · rintro ⟨hd, hcompile⟩
    exact ⟨d, hd, (), Declaration.validate_eq_ok_iff.mpr hcompile, rfl⟩

theorem Declaration.toDeclaration_toFlags {d : Declaration} {rs : List Rule}
    (h : d.compile = .ok rs) : d.toFlags.toDeclaration = .ok d := by
  refine RuleFlags.toDeclaration_eq_ok_iff.mpr ⟨unchecked_toFlags fun e he => ?_, rs, h⟩
  obtain ⟨p, hp⟩ := parse_of_compile h e he
  exact trim_of_parse hp

/-! ## Policies in use -/

namespace Policy

theorem compiled_of_start {s : Start} {p : Policy} (h : s.policy = .ok p)
    (hgiven : ∀ rs, s ≠ .given rs) : ∀ r ∈ p.rules, r.Compiled := by
  have hrules := (Start.policy_eq_ok_iff.mp h).1
  cases s with
  | fresh b =>
    rw [← Except.ok.inj hrules]
    simp
  | declared d => exact compiled_of_declaration hrules
  | given rs => exact absurd rfl (hgiven rs)

theorem compiled_afterCalls {s : Start} {p : Policy} (h : s.policy = .ok p)
    (hgiven : ∀ rs, s ≠ .given rs) (cs : List Call) :
    ∀ r ∈ (p.afterCalls cs).rules, r.Compiled := by
  intro r hr
  rw [afterCalls_eq_after] at hr
  rcases mem_rules_after hr with hr | hr
  · exact compiled_of_start h hgiven r hr
  · exact hr

/-- Written down as a declaration or as flags, a policy in use comes back as it was. -/
theorem export_comes_back {s : Start} {p : Policy} (h : s.policy = .ok p)
    (hgiven : ∀ rs, s ≠ .given rs) (cs : List Call) :
    (∀ r ∈ (p.afterCalls cs).rules,
      (Pattern.parse r.pattern).map Pattern.matcher = .ok r.matcher ∧
        (r.matcher.size = 4 ∨ r.matcher.size = 16) ∧
        ∀ mask value, r.matcher = .masked mask value → mask.length = value.length) ∧
      (p.afterCalls cs).toDeclaration.validate = .ok () ∧
      ofDeclaration (p.afterCalls cs).toDeclaration = .ok (p.afterCalls cs) ∧
      RuleFlags.toDeclaration
          { rules := (p.afterCalls cs).toDeclaration.entries.map Entry.toFlag
            allow := []
            deny := []
            defaultAllow := (p.afterCalls cs).defaultAllow } =
        .ok (p.afterCalls cs).toDeclaration := by
  have hrules := compiled_afterCalls h hgiven cs
  have hcompile := compile_toDeclaration hrules
  refine ⟨fun r hr => ?_, ?_, ?_, ?_⟩
  · have hr := hrules r hr
    exact ⟨hr.parse_eq, hr.matcher.size_eq, fun mask value => hr.matcher.length_value⟩
  · exact Declaration.validate_eq_ok_iff.mpr ⟨_, hcompile⟩
  · unfold ofDeclaration
    rw [hcompile]
    rfl
  · exact Declaration.toDeclaration_toFlags hcompile

theorem export_of_short_history :
    Start.policy (.fresh true) = .ok { defaultAllow := true } ∧
      (∀ rs, Start.fresh true ≠ .given rs) ∧
      ∃ p, p = Policy.afterCalls { defaultAllow := true }
          [.change (.add ⟨.deny, "1.2.*.*"⟩), .change (.add ⟨.deny, "fe80::1"⟩),
            .change (.addChain [⟨.allow, "10.0.0.0/08"⟩, ⟨.allow, "10.0.0.0/33"⟩])] ∧
        p.rules =
          [⟨.deny, "1.2.*.*", .masked [255, 255, 0, 0] [1, 2, 0, 0]⟩,
            ⟨.allow, "10.0.0.0/08", .masked [255, 0, 0, 0] [10, 0, 0, 0]⟩] ∧
        (∀ r ∈ p.rules,
          (Pattern.parse r.pattern).map Pattern.matcher = .ok r.matcher ∧
            (r.matcher.size = 4 ∨ r.matcher.size = 16) ∧
            ∀ mask value, r.matcher = .masked mask value → mask.length = value.length) ∧
        p.toDeclaration = ⟨true, [⟨.deny, "1.2.*.*"⟩, ⟨.allow, "10.0.0.0/08"⟩]⟩ ∧
        p.toDeclaration.validate = .ok () ∧
        ofDeclaration p.toDeclaration = .ok p ∧
        RuleFlags.toDeclaration
            { rules := ["deny:1.2.*.*", "allow:10.0.0.0/08"], defaultAllow := true } =
          .ok p.toDeclaration := by
  have hgiven : ∀ rs, Start.fresh true ≠ .given rs := by simp
  obtain ⟨hrules, hvalid, hback, hflags⟩ := export_comes_back (s := .fresh true) rfl hgiven
    [.change (.add ⟨.deny, "1.2.*.*"⟩), .change (.add ⟨.deny, "fe80::1"⟩),
      .change (.addChain [⟨.allow, "10.0.0.0/08"⟩, ⟨.allow, "10.0.0.0/33"⟩])]
  exact ⟨rfl, hgiven, _, rfl, rfl, hrules, rfl, hvalid, hback, hflags⟩

end Policy

end PeerAccess
