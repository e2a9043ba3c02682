import PeerAccess.Proofs.Blocks
import PeerAccess.Proofs.Export
import PeerAccess.Proofs.MatcherEquality

/-!
# Host bits

A block whose written address has bits past its prefix accepts nothing, and no other pattern is like
that: every other one accepts the address in its matcher. So the warning about host bits names the
rules that may as well be left out.
-/

namespace PeerAccess

/-- The written address of a block has a one among the bits that its length leaves out. -/
def StraysPastPrefix (s : String) : Prop :=
  ∃ (f : Family) (ns : List Nat) (n : Nat), Spells s.toList ⟨f, ns.map some, some n⟩ ∧
    ∃ i < f.form.bits - n, (f.number ns).testBit i = true

/-- At any place of any list the rule changes no verdict. -/
def Rule.Inert (r : Rule) : Prop :=
  ∀ (p : Policy) (before rest : List Rule), p.rules = before ++ rest →
    (∀ x, (p.replace (before ++ r :: rest)).allows x = p.allows x) ∧
      ∀ ip, (p.replace (before ++ r :: rest)).admits ip = p.admits ip

theorem Rule.inert_of_dead {r : Rule} (h : ∀ x, r.accepts x = false) : r.Inert :=
  fun _ _ _ hrules => ⟨fun x => Policy.allows_insert hrules (h x),
    fun ip => Policy.allows_insert hrules (h ip.canonical.octets)⟩

/-! ## Matchers that accept something -/

theorem covers_of_accepts {ms vs x : Octets} (hlen : ms.length = vs.length)
    (h : (Matcher.masked ms vs).accepts x = true) : Covers ms vs := by
  induction ms generalizing vs x with
  | nil =>
    obtain rfl := List.eq_nil_of_length_eq_zero hlen.symm
    exact .nil
  | cons m ms ih =>
    obtain ⟨v, vs, rfl⟩ := List.exists_cons_of_length_eq_add_one hlen.symm
    have hsize := Matcher.length_eq_size_of_accepts h
    obtain ⟨a, x, rfl⟩ := List.exists_cons_of_length_eq_add_one hsize
    obtain ⟨hhead, htail⟩ := (accepts_masked_cons ..).mp h
    refine .cons ?_ (ih (by simpa using hlen) htail)
    rw [← hhead, UInt8.and_assoc, UInt8.and_self]

namespace Matcher

theorem Tidy.accepts_value {m : Matcher} (h : m.Tidy) : m.accepts m.value = true :=
  (accepts_iff_masked m m.value).mpr (PeerAccess.accepts_value h)

theorem tidy_of_accepts {m : Matcher} (hlen : m.mask.length = m.value.length) {x : Octets}
    (h : m.accepts x = true) : m.Tidy :=
  covers_of_accepts hlen ((accepts_iff_masked m x).mp h)

theorem Compiled.length_mask {m : Matcher} (h : m.Compiled) : m.mask.length = m.value.length := by
  cases m with
  | exact os => exact List.length_replicate
  | masked mask value => exact h.length_value rfl

end Matcher

/-! ## Patterns that accept something -/

theorem Spells.tidy_iff {cs : List Char} {c : Content} (h : Spells cs c) :
    (Pattern.ofContent c).matcher.Tidy ↔ (Pattern.ofContent c).hasHostBits = false := by
  refine ⟨fun htidy => ?_, h.wellFormed.tidy⟩
  cases h with
  | address f =>
    unfold Pattern.ofContent
    dsimp only
    split <;> rfl
  | block f hcount hgroups =>
    rw [Pattern.ofContent_block] at htidy ⊢
    exact (tidy_block_iff (hgroups.length_eq ▸ hcount)).mp htidy

theorem tidy_iff_of_parse {s : String} {p : Pattern} (h : Pattern.parse s = .ok p) :
    p.matcher.Tidy ↔ p.hasHostBits = false := by
  obtain ⟨c, hc, rfl⟩ := parse_eq_ok_iff.mp h
  exact hc.tidy_iff

theorem exists_accepts_iff_of_parse {s : String} {p : Pattern} (h : Pattern.parse s = .ok p) :
    (∃ x, p.matcher.accepts x = true) ↔ p.hasHostBits = false := by
  have hcompiled : p.matcher.Compiled := ⟨s, p, h, rfl⟩
  rw [← tidy_iff_of_parse h]
  constructor
  · rintro ⟨x, hx⟩
    exact Matcher.tidy_of_accepts hcompiled.length_mask hx
  · intro htidy
    exact ⟨_, htidy.accepts_value⟩

theorem dead_iff_of_parse {s : String} {p : Pattern} (h : Pattern.parse s = .ok p) :
    (∀ x, p.matcher.accepts x = false) ↔ p.hasHostBits = true := by
  rw [← not_iff_not, Bool.not_eq_true, ← exists_accepts_iff_of_parse h]
  simp

theorem mod_two_pow_ne_zero_iff {n k : Nat} :
    n % 2 ^ k ≠ 0 ↔ ∃ i < k, n.testBit i = true := by
  constructor
  · intro hne
    obtain ⟨i, hi⟩ := Nat.exists_testBit_of_ne_zero hne
    rw [Nat.testBit_mod_two_pow, Bool.and_eq_true, decide_eq_true_eq] at hi
    exact ⟨i, hi⟩
  · rintro ⟨i, hlt, hi⟩ hzero
    have hbit := Nat.testBit_mod_two_pow n k i
    simp [hzero, hlt, hi] at hbit

theorem block_hasHostBits_iff {s : String} {f : Family} {ns : List Nat} {n : Nat}
    (h : Spells s.toList ⟨f, ns.map some, some n⟩) :
    (Pattern.block f ns n).hasHostBits = true ↔
      ∃ i < f.form.bits - n, (f.number ns).testBit i = true := by
  have hparse : Pattern.parse s = .ok (.block f ns n) :=
    parse_eq_ok_iff.mpr ⟨_, h, Pattern.ofContent_block f ns n⟩
  rw [← dead_iff_of_parse hparse, ← mod_two_pow_ne_zero_iff]
  constructor
  · intro hdead hzero
    -- Without a remainder the written address would be accepted.
    have hpacks := packs_of_block h
    have haccepts := (block_accepts_iff h _).mpr
      ⟨hpacks.length, by rw [hpacks.value], hzero⟩
    rw [hdead] at haccepts
    cases haccepts
  · intro hbits x
    exact block_accepts_eq_false h hbits x

theorem slash_mem_of_hasHostBits {cs : List Char} {c : Content} (h : Spells cs c)
    (hhost : (Pattern.ofContent c).hasHostBits = true) : '/' ∈ cs := by
  rw [h.slash_mem_iff]
  cases hlength : c.length with
  | some n => exact ⟨n, rfl⟩
  | none =>
    unfold Pattern.ofContent at hhost
    rw [hlength] at hhost
    dsimp only at hhost
    split at hhost <;> cases hhost

theorem strays_iff_of_parse {s : String} {p : Pattern} (h : Pattern.parse s = .ok p) :
    StraysPastPrefix s ↔ p.hasHostBits = true := by
  constructor
  · rintro ⟨f, ns, n, hspells, hbit⟩
    have hparse := parse_eq_ok_iff.mpr ⟨_, hspells, Pattern.ofContent_block f ns n⟩
    obtain rfl := Except.ok.inj (h.symm.trans hparse)
    exact (block_hasHostBits_iff hspells).mpr hbit
  · intro hhost
    obtain ⟨c, hc, rfl⟩ := parse_eq_ok_iff.mp h
    obtain ⟨f, ns, n, rfl⟩ := exists_block_of_slash hc (slash_mem_of_hasHostBits hc hhost)
    rw [Pattern.ofContent_block] at hhost
    exact ⟨f, ns, n, hc, (block_hasHostBits_iff hc).mp hhost⟩

theorem straysPastPrefix_iff {s : String} :
    StraysPastPrefix s ↔ (Pattern.parse s).toOption.any Pattern.hasHostBits = true := by
  cases h : Pattern.parse s with
  | ok p => exact strays_iff_of_parse h
  | error err =>
    refine iff_of_false ?_ Bool.false_ne_true
    rintro ⟨f, ns, n, hspells, -⟩
    have hok := parse_eq_ok_iff.mpr ⟨_, hspells, rfl⟩
    rw [h] at hok
    cases hok

instance : DecidablePred StraysPastPrefix := fun _ => decidable_of_iff _ straysPastPrefix_iff.symm

/-! ## Warnings -/

namespace Entry

theorem warnings_of_error {s : String} {err : PatternError} (h : Pattern.parse s = .error err)
    (a : Action) : (mk a s).warnings = [] := by
  simp only [warnings, h]

theorem warnings_of_ok {s : String} {p : Pattern} (h : Pattern.parse s = .ok p) (a : Action) :
    (mk a s).warnings = if p.hasHostBits then [.hostBits s] else [] := by
  simp only [warnings, h]

theorem warnings_eq (e : Entry) :
    e.warnings = if StraysPastPrefix e.pattern then [.hostBits e.pattern] else [] := by
  simp only [straysPastPrefix_iff]
  unfold warnings
  cases Pattern.parse e.pattern <;> rfl

section
variable {s : String} {p : Pattern} (h : Pattern.parse s = .ok p) (a : Action)
include h

theorem warnings_eq_nil_iff : (mk a s).warnings = [] ↔ p.hasHostBits = false := by
  rw [warnings_of_ok h a]
  simp

theorem lines_eq_iff :
    (mk a s).warnings.map Event.line =
        [s!"WARN Peer pattern '{s}' has host bits set past its prefix and will never match"] ↔
      p.hasHostBits = true := by
  rw [warnings_of_ok h a]
  cases p.hasHostBits with
  | true => exact iff_of_true rfl rfl
  | false => exact iff_of_false (List.cons_ne_nil _ _).symm Bool.noConfusion

end

end Entry

/-- A pattern is warned about when it accepts nothing, and that is when its address goes on past its
prefix. A rule with the warning may stand anywhere; one without has a say at least on the address in
its matcher. -/
theorem warned_iff_dead (a : Action) (s : String) :
    (∀ err, Pattern.parse s = .error err → (Entry.mk a s).warnings = []) ∧
      (∀ p, Pattern.parse s = .ok p →
        ((Entry.mk a s).warnings.map Event.line =
            [s!"WARN Peer pattern '{s}' has host bits set past its prefix and will never match"] ↔
          ∀ x, p.matcher.accepts x = false) ∧
        ((Entry.mk a s).warnings = [] ↔ ∃ x, p.matcher.accepts x = true) ∧
        ((∀ x, p.matcher.accepts x = false) ↔ StraysPastPrefix s)) ∧
      ∀ r, Rule.compile a s = .ok r →
        ((Entry.mk a s).warnings ≠ [] → r.Inert) ∧
        ((Entry.mk a s).warnings = [] →
          r.accepts r.matcher.value = true ∧
            ∀ b, Action.ofVerdict
              (Policy.allows { rules := [r], defaultAllow := b } r.matcher.value) = a) := by
  refine ⟨fun err h => Entry.warnings_of_error h a, fun p h => ?_, fun r hr => ?_⟩
  · have hdead := dead_iff_of_parse h
    exact ⟨(Entry.lines_eq_iff h a).trans hdead.symm,
      (Entry.warnings_eq_nil_iff h a).trans (exists_accepts_iff_of_parse h).symm,
      hdead.trans (strays_iff_of_parse h).symm⟩
  · simp only [Rule.compile, map_eq_ok_iff] at hr
    obtain ⟨p, hp, rfl⟩ := hr
    rw [ne_eq, Entry.warnings_eq_nil_iff hp a, Bool.not_eq_false]
    refine ⟨fun hhost => Rule.inert_of_dead ((dead_iff_of_parse hp).mpr hhost), fun hhost => ?_⟩
    have haccepts : (Rule.mk a s p.matcher).accepts p.matcher.value = true :=
      ((tidy_iff_of_parse hp).mpr hhost).accepts_value
    refine ⟨haccepts, fun b => ?_⟩
    rw [Policy.allows_singleton haccepts]
    exact Rule.ofVerdict_verdict _

/-- Host bits of the last octet count also where the prefix ends within another one. -/
theorem warned_block_is_inert :
    Pattern.parse "10.16.0.1/12" = .ok (.block .v4 [10, 16, 0, 1] 12) ∧
      (∀ x, (Pattern.block .v4 [10, 16, 0, 1] 12).matcher.accepts x = false) ∧
      Rule.compile .allow "10.16.0.1/12" =
        .ok ⟨.allow, "10.16.0.1/12", .masked [255, 240, 0, 0] [10, 16, 0, 1]⟩ ∧
      (∀ ip,
        Policy.admits
            { rules :=
                [⟨.allow, "10.16.0.1/12", .masked [255, 240, 0, 0] [10, 16, 0, 1]⟩,
                  ⟨.deny, "10.*.*.*", .masked [255, 0, 0, 0] [10, 0, 0, 0]⟩] } ip =
          Policy.admits
            { rules := [⟨.deny, "10.*.*.*", .masked [255, 0, 0, 0] [10, 0, 0, 0]⟩] } ip) ∧
      Rule.compile .deny "10.16.0.0/12" =
        .ok ⟨.deny, "10.16.0.0/12", .masked [255, 240, 0, 0] [10, 16, 0, 0]⟩ ∧
      Action.ofVerdict
          (Policy.allows
            { rules := [⟨.deny, "10.16.0.0/12", .masked [255, 240, 0, 0] [10, 16, 0, 0]⟩]
              defaultAllow := true } [10, 16, 0, 0]) = .deny := by
  have hparse : Pattern.parse "10.16.0.1/12" = .ok (.block .v4 [10, 16, 0, 1] 12) := rfl
  have hallow : Rule.compile .allow "10.16.0.1/12" =
      .ok ⟨.allow, "10.16.0.1/12", .masked [255, 240, 0, 0] [10, 16, 0, 1]⟩ := rfl
  have hdeny : Rule.compile .deny "10.16.0.0/12" =
      .ok ⟨.deny, "10.16.0.0/12", .masked [255, 240, 0, 0] [10, 16, 0, 0]⟩ := rfl
  obtain ⟨_, hpattern, hrule⟩ := warned_iff_dead .allow "10.16.0.1/12"
  obtain ⟨_, _, hrule'⟩ := warned_iff_dead .deny "10.16.0.0/12"
  refine ⟨hparse, (hpattern _ hparse).1.mp rfl, hallow, ?_, hdeny, ?_⟩
  · exact ((hrule _ hallow).1 (by decide)
      { rules := [⟨.deny, "10.*.*.*", .masked [255, 0, 0, 0] [10, 0, 0, 0]⟩] } [] _ rfl).2
  · exact ((hrule' _ hdeny).2 rfl).2 true

end PeerAccess
