import PeerAccess.Proofs.FrontEnds
import PeerAccess.Proofs.Installation
import PeerAccess.Proofs.Precedence

/-!
# Allowed before denied

Variables give a list of allowed patterns, a list of denied ones and a default, and so do flags
without rules of their own order. What is allowed comes first. So the verdict is a formula without
any order: a denied pattern takes back no allowed one, and where the default denies, the denied
patterns have no say at all.
-/

namespace PeerAccess

open Environment

/-- The text `s` is a pattern that accepts `x`. -/
def Matches (s : String) (x : Octets) : Prop :=
  ∃ q, Pattern.parse s = .ok q ∧ q.matcher.accepts x = true

/-- What allowed patterns, denied patterns and a default say about `x`. -/
def LetsIn (b : Bool) (allow deny : List String) (x : Octets) : Prop :=
  (∃ s ∈ allow, Matches s x) ∨ b = true ∧ ¬ ∃ s ∈ deny, Matches s x

def Lookup.listed (lookup : Lookup) (v : Variable) : List String := readList ((lookup v).getD "")

/-- The environment declares a policy, and its patterns can all be read. -/
def Lookup.Configures (lookup : Lookup) (p : Policy) : Prop :=
  ∃ d, (Declaration.fromEnvironment lookup).result = .ok d ∧ Policy.ofDeclaration d = .ok p

def Policy.SameVerdicts (p q : Policy) : Prop :=
  (∀ x, p.allows x = q.allows x) ∧ ∀ ip, p.admits ip = q.admits ip

namespace Declaration

theorem ofVariables_eq (lookup : Lookup) (b : Bool) :
    ofVariables lookup b = ofLists b (lookup.listed .allow) (lookup.listed .deny) := rfl

theorem become_of_policy {d : Declaration} {p : Policy} (h : Policy.ofDeclaration d = .ok p) :
    List.Forall₂ Entry.Becomes d.entries p.rules :=
  (mapM_eq_ok_iff.mp (Policy.ofDeclaration_eq_ok_iff.mp h).1).imp
    fun _ _ he => Entry.compile_eq_ok_iff.mp he

theorem exists_policy_iff {d : Declaration} :
    (∃ p, Policy.ofDeclaration d = .ok p) ↔
      ∀ e ∈ d.entries, ∃ q, Pattern.parse e.pattern = .ok q := by
  constructor
  · rintro ⟨p, hp⟩
    exact readable_of_become (become_of_policy hp)
  · intro h
    rcases Entry.all_become_or_first_bad d.entries with
      ⟨rs, hrs⟩ | ⟨good, e, rest, err, rs, hentries, _, he⟩
    · exact ⟨{ rules := rs, defaultAllow := d.defaultAllow },
        Policy.ofDeclaration_eq_ok_iff.mpr ⟨compile_of_become hrs, rfl⟩⟩
    · obtain ⟨q, hq⟩ := h e (by simp [hentries])
      rw [Entry.compile_eq_error_iff.mp he] at hq
      cases hq

theorem exists_policy_ofLists_iff {b : Bool} {allow deny : List String} :
    (∃ p, Policy.ofDeclaration (ofLists b allow deny) = .ok p) ↔
      ∀ s, s ∈ allow ∨ s ∈ deny → ∃ q, Pattern.parse s = .ok q := by
  rw [exists_policy_iff]
  simp [ofLists, entriesFor, or_imp, forall_and]

end Declaration

/-! ## Rules of one action -/

theorem exists_parts_of_append {α β : Type} {R : α → β → Prop} {xs xs' : List α} {ys : List β}
    (h : List.Forall₂ R (xs ++ xs') ys) :
    ∃ zs zs', ys = zs ++ zs' ∧ List.Forall₂ R xs zs ∧ List.Forall₂ R xs' zs' := by
  refine ⟨ys.take xs.length, ys.drop xs.length, (List.take_append_drop _ _).symm, ?_, ?_⟩
  · simpa using List.forall₂_take xs.length h
  · simpa using List.forall₂_drop xs.length h

namespace Entry

theorem Becomes.accepts_iff {e : Entry} {r : Rule} (h : e.Becomes r) {x : Octets} :
    r.accepts x = true ↔ Matches e.pattern x := by
  obtain ⟨q, hq, hmatcher⟩ := map_eq_ok_iff.mp h.matcher
  simp [Matches, hq, Rule.accepts, hmatcher]

section
variable {a : Action} {ss : List String} {rs : List Rule}
  (h : List.Forall₂ Becomes (Declaration.entriesFor a ss) rs)
include h

theorem action_of_becomeFor : ∀ r ∈ rs, r.action = a := by
  intro r hr
  obtain ⟨e, he, hbecomes⟩ := exists_partner h.flip hr
  obtain ⟨s, _, rfl⟩ := List.mem_map.mp he
  exact hbecomes.action

theorem exists_accepts_iff (x : Octets) :
    (∃ r ∈ rs, r.accepts x = true) ↔ ∃ s ∈ ss, Matches s x := by
  constructor
  · rintro ⟨r, hr, hx⟩
    obtain ⟨e, he, hbecomes⟩ := exists_partner h.flip hr
    obtain ⟨s, hs, rfl⟩ := List.mem_map.mp he
    exact ⟨s, hs, hbecomes.accepts_iff.mp hx⟩
  · rintro ⟨s, hs, hx⟩
    obtain ⟨r, hr, hbecomes⟩ := exists_partner h (List.mem_map_of_mem hs)
    exact ⟨r, hr, hbecomes.accepts_iff.mpr hx⟩

end

end Entry

namespace Policy

theorem allows_ofLists {b : Bool} {allow deny : List String} {p : Policy}
    (h : ofDeclaration (.ofLists b allow deny) = .ok p) (x : Octets) :
    p.allows x = true ↔ LetsIn b allow deny x := by
  have hdefault : p.defaultAllow = b := (ofDeclaration_eq_ok_iff.mp h).2
  obtain ⟨as, ds, hrules, has, hds⟩ := exists_parts_of_append (Declaration.become_of_policy h)
  have hp : p = p.replace (as ++ ds) := by
    rw [← hrules]
    rfl
  -- What the denied patterns leave is the default under which the allowed ones decide.
  have hdeny : (p.replace ds).allows x = true ↔
      b = true ∧ ¬ ∃ s ∈ deny, Matches s x := by
    rw [allows_of_deny_only (Entry.action_of_becomeFor hds), ← Entry.exists_accepts_iff hds,
      ← hdefault]
    rfl
  unfold LetsIn
  rw [hp, allows_append, allows_of_allow_only (Entry.action_of_becomeFor has), ← hdeny,
    ← Entry.exists_accepts_iff has]
  rfl

theorem configures_iff {lookup : Lookup} {p : Policy} :
    lookup.Configures p ↔
      readOr false (readFlag .defaultAllow) (lookup .defaultAllow) = .ok p.defaultAllow ∧
        ofDeclaration
          (.ofLists p.defaultAllow (lookup.listed .allow) (lookup.listed .deny)) = .ok p := by
  unfold Lookup.Configures
  simp only [Declaration.fromEnvironment_eq_ok_iff, Declaration.ofVariables_eq]
  constructor
  · rintro ⟨_, ⟨b, hb, rfl⟩, hp⟩
    obtain rfl : p.defaultAllow = b := (ofDeclaration_eq_ok_iff.mp hp).2
    exact ⟨hb, hp⟩
  · rintro ⟨hb, hp⟩
    exact ⟨_, ⟨_, hb, rfl⟩, hp⟩

/-! ## Lists that say the same -/

theorem LetsIn.congr {b : Bool} {allow deny allow' deny' : List String}
    (hallow : ∀ s, s ∈ allow' ↔ s ∈ allow) (hdeny : ∀ s, s ∈ deny' ↔ s ∈ deny) (x : Octets) :
    LetsIn b allow' deny' x ↔ LetsIn b allow deny x := by
  unfold LetsIn
  simp only [hallow, hdeny]

theorem sameVerdicts_of_letsIn {b : Bool} {allow deny allow' deny' : List String} {p q : Policy}
    (hp : ofDeclaration (.ofLists b allow deny) = .ok p)
    (hq : ofDeclaration (.ofLists b allow' deny') = .ok q)
    (h : ∀ x, LetsIn b allow' deny' x ↔ LetsIn b allow deny x) : q.SameVerdicts p := by
  have hallows : ∀ x, q.allows x = p.allows x := by
    intro x
    rw [Bool.eq_iff_iff, allows_ofLists hp, allows_ofLists hq, h]
  exact ⟨hallows, fun ip => hallows ip.canonical.octets⟩

section
variable {lookup lookup' : Lookup} {p : Policy}

/-- Variables with the same default and lists that say the same give the same verdicts, as long as
all patterns can be read. -/
theorem exists_same_verdicts (h : lookup.Configures p)
    (hdefault : lookup' .defaultAllow = lookup .defaultAllow)
    (hreadable : ∀ s, s ∈ lookup'.listed .allow ∨ s ∈ lookup'.listed .deny →
      ∃ q, Pattern.parse s = .ok q)
    (hsame : ∀ x, LetsIn p.defaultAllow (lookup'.listed .allow) (lookup'.listed .deny) x ↔
      LetsIn p.defaultAllow (lookup.listed .allow) (lookup.listed .deny) x) :
    ∃ q, lookup'.Configures q ∧ q.SameVerdicts p := by
  obtain ⟨hflag, hp⟩ := configures_iff.mp h
  obtain ⟨q, hq⟩ := Declaration.exists_policy_ofLists_iff.mpr hreadable
  have hq' : q.defaultAllow = p.defaultAllow := (ofDeclaration_eq_ok_iff.mp hq).2
  refine ⟨q, configures_iff.mpr ⟨?_, hq'.symm ▸ hq⟩, sameVerdicts_of_letsIn hp hq hsame⟩
  rw [hdefault, hq']
  exact hflag

theorem exists_same_verdicts_of_same_lists (h : lookup.Configures p)
    (hdefault : lookup' .defaultAllow = lookup .defaultAllow)
    (hallow : ∀ s, s ∈ lookup'.listed .allow ↔ s ∈ lookup.listed .allow)
    (hdeny : ∀ s, s ∈ lookup'.listed .deny ↔ s ∈ lookup.listed .deny) :
    ∃ q, lookup'.Configures q ∧ q.SameVerdicts p := by
  have hreadable := Declaration.exists_policy_ofLists_iff.mp ⟨p, (configures_iff.mp h).2⟩
  refine exists_same_verdicts h hdefault (fun s hs => hreadable s ?_) (LetsIn.congr hallow hdeny)
  rwa [← hallow, ← hdeny]

theorem exists_same_verdicts_of_default_deny (h : lookup.Configures p)
    (hdeny : p.defaultAllow = false) (hvars : ∀ v, v ≠ .deny → lookup' v = lookup v)
    (hreadable : ∀ s ∈ lookup'.listed .deny, ∃ q, Pattern.parse s = .ok q) :
    ∃ q, lookup'.Configures q ∧ q.SameVerdicts p := by
  have hold := Declaration.exists_policy_ofLists_iff.mp ⟨p, (configures_iff.mp h).2⟩
  have hallow : lookup'.listed .allow = lookup.listed .allow := by
    unfold Lookup.listed
    rw [hvars .allow (by decide)]
  refine exists_same_verdicts h (hvars .defaultAllow (by decide)) ?_ fun x => ?_
  · rintro s (hs | hs)
    · exact hold s (.inl (hallow ▸ hs))
    · exact hreadable s hs
  · unfold LetsIn
    rw [hallow, hdeny]
    simp

end

/-- With lists of what is allowed and what is denied, order and repetition have no say, denied
patterns take back no allowed one, and they do nothing where the default denies. -/
theorem allowed_before_denied :
    (∀ (lookup : Lookup) (p : Policy), lookup.Configures p →
      readOr false (readFlag .defaultAllow) (lookup .defaultAllow) = .ok p.defaultAllow ∧
        ∀ x, p.allows x = true ↔
          LetsIn p.defaultAllow (lookup.listed .allow) (lookup.listed .deny) x) ∧
      (∀ (flags : RuleFlags) (d : Declaration), flags.rules = [] → flags.toDeclaration = .ok d →
        ∃ p, ofDeclaration d = .ok p ∧
          ∀ x, p.allows x = true ↔ LetsIn flags.defaultAllow flags.allow flags.deny x) ∧
      ∀ (lookup : Lookup) (p : Policy), lookup.Configures p →
        (∀ lookup' : Lookup, lookup' .defaultAllow = lookup .defaultAllow →
          (∀ s, s ∈ lookup'.listed .allow ↔ s ∈ lookup.listed .allow) →
          (∀ s, s ∈ lookup'.listed .deny ↔ s ∈ lookup.listed .deny) →
            ∃ q, lookup'.Configures q ∧ q.SameVerdicts p) ∧
        (∀ s x, s ∈ lookup.listed .allow → Matches s x → p.allows x = true) ∧
        (p.defaultAllow = false →
          ∀ lookup' : Lookup, (∀ v, v ≠ .deny → lookup' v = lookup v) →
            (∀ s ∈ lookup'.listed .deny, ∃ q, Pattern.parse s = .ok q) →
              ∃ q, lookup'.Configures q ∧ q.SameVerdicts p) := by
  refine ⟨fun lookup p h => ?_, fun flags d hrules hd => ?_, fun lookup p h => ⟨?_, ?_, ?_⟩⟩
  · obtain ⟨hflag, hp⟩ := configures_iff.mp h
    exact ⟨hflag, allows_ofLists hp⟩
  · obtain ⟨hunchecked, rs, hrs⟩ := RuleFlags.toDeclaration_eq_ok_iff.mp hd
    obtain rfl := RuleFlags.eq_of_no_rules hrules hunchecked
    have hp : ofDeclaration (.ofLists flags.defaultAllow flags.allow flags.deny) =
        .ok { rules := rs, defaultAllow := flags.defaultAllow } :=
      ofDeclaration_eq_ok_iff.mpr ⟨hrs, rfl⟩
    exact ⟨_, hp, allows_ofLists hp⟩
  · exact fun lookup' => exists_same_verdicts_of_same_lists h
  · intro s x hs hx
    exact (allows_ofLists (configures_iff.mp h).2 x).mpr (.inl ⟨s, hs, hx⟩)
  · exact fun hdeny lookup' => exists_same_verdicts_of_default_deny h hdeny

/-- A denied address stays in the allowed block, and nothing changes when the block is written twice
or when other addresses are denied. -/
theorem allowed_before_denied_host :
    Lookup.Configures (.withRules (fun _ => none) false ["10.0.0.0/8"] ["10.1.2.3"])
        { rules :=
            [⟨.allow, "10.0.0.0/8", .masked [255, 0, 0, 0] [10, 0, 0, 0]⟩,
              ⟨.deny, "10.1.2.3", .exact [10, 1, 2, 3]⟩] } ∧
      Matches "10.0.0.0/8" [10, 1, 2, 3] ∧
      (∃ q : Policy,
        Lookup.Configures
            (.withRules (fun _ => none) false ["10.0.0.0/8", "10.0.0.0/8"] ["10.1.2.3"]) q ∧
          q.allows [10, 1, 2, 3] = true) ∧
      (∃ q : Policy,
        Lookup.Configures (.withRules (fun _ => none) false ["10.0.0.0/8"] ["10.*.*.*"]) q ∧
          q.allows [10, 1, 2, 3] = true) ∧
      ∃ p, ofDeclaration ⟨true, [⟨.deny, "10.*.*.*"⟩]⟩ = .ok p ∧
        (p.allows [10, 1, 2, 3] = true ↔ LetsIn true [] ["10.*.*.*"] [10, 1, 2, 3]) := by
  have hconfigures :
      Lookup.Configures (.withRules (fun _ => none) false ["10.0.0.0/8"] ["10.1.2.3"])
        { rules :=
            [⟨.allow, "10.0.0.0/8", .masked [255, 0, 0, 0] [10, 0, 0, 0]⟩,
              ⟨.deny, "10.1.2.3", .exact [10, 1, 2, 3]⟩] } := ⟨_, rfl, rfl⟩
  have hmatches : Matches "10.0.0.0/8" [10, 1, 2, 3] := ⟨_, rfl, rfl⟩
  obtain ⟨_, hflags, hlookup⟩ := allowed_before_denied
  obtain ⟨hsame, hallow, hdefault⟩ := hlookup _ _ hconfigures
  have hallowed := hallow "10.0.0.0/8" [10, 1, 2, 3] (by decide) hmatches
  refine ⟨hconfigures, hmatches, ?_, ?_, ?_⟩
  · obtain ⟨q, hq, hverdicts, _⟩ := hsame
      (.withRules (fun _ => none) false ["10.0.0.0/8", "10.0.0.0/8"] ["10.1.2.3"]) rfl
      (fun s => by
        change s ∈ ["10.0.0.0/8", "10.0.0.0/8"] ↔ s ∈ ["10.0.0.0/8"]
        simp)
      (fun s => Iff.rfl)
    exact ⟨q, hq, (hverdicts _).trans hallowed⟩
  · obtain ⟨q, hq, hverdicts, _⟩ := hdefault rfl
      (.withRules (fun _ => none) false ["10.0.0.0/8"] ["10.*.*.*"])
      (fun v hv => by cases v <;> first | rfl | exact absurd rfl hv)
      (fun s hs => by
        obtain rfl : s = "10.*.*.*" := List.mem_singleton.mp hs
        exact ⟨_, rfl⟩)
    exact ⟨q, hq, (hverdicts _).trans hallowed⟩
  · obtain ⟨p, hp, hformula⟩ := hflags { deny := ["10.*.*.*"], defaultAllow := true } _ rfl rfl
    exact ⟨p, hp, hformula _⟩

end Policy

end PeerAccess
