import PeerAccess.Proofs.Readings
import PeerAccess.Serve

/-!
# Flags over environment over defaults

Listen address and rules are settled apart from each other. Flags are read before any variable is
asked for, and a variable of a part that flags settle is not asked for at all.
-/

namespace PeerAccess

open Text Environment

/-- Why the text of a variable cannot be used. Lists always can: their patterns are not checked
here. -/
def Variable.fault? (lookup : Lookup) : Variable → Option SettingError
  | listen => (lookup listen).bind fun raw =>
      if (Endpoint.parse? (trimmed raw)).isSome then none else some (.notEndpoint listen raw)
  | defaultAllow => (lookup defaultAllow).bind fun raw =>
      if lowered (trimmed raw) ∈ yesWords ++ noWords then none
      else some (.notBoolean defaultAllow (lowered (trimmed raw)))
  | allow | deny => none

/-! ## Variables -/

theorem readEndpoint_eq_ok_iff {v : Variable} {raw : String} {e : Endpoint} :
    readEndpoint v raw = .ok e ↔ Endpoint.parse? (trimmed raw) = some e := by
  unfold readEndpoint
  cases Endpoint.parse? (trimmed raw) <;> simp

theorem readFlag_eq_ok_iff {v : Variable} {raw : String} {b : Bool} :
    readFlag v raw = .ok b ↔ lowered (trimmed raw) ∈ if b then yesWords else noWords := by
  have hdisjoint : ∀ w ∈ yesWords, w ∉ noWords := by decide
  unfold readFlag
  by_cases hyes : lowered (trimmed raw) ∈ yesWords
  · cases b <;> simp [hyes, hdisjoint _ hyes]
  · by_cases hno : lowered (trimmed raw) ∈ noWords <;> cases b <;> simp [hyes, hno]

theorem readOr_eq_ok_iff {α : Type} {default a : α} {read : String → Except SettingError α}
    {value : Option String} :
    readOr default read value = .ok a ↔
      (∀ raw, value = some raw → read raw = .ok a) ∧ (value = none → default = a) := by
  cases value <;> simp [readOr]

theorem readListen_fault (current : Endpoint) (lookup : Lookup) :
    (∀ e, Variable.listen.fault? lookup = some e →
        readOr current (readEndpoint .listen) (lookup .listen) = .error e) ∧
      (Variable.listen.fault? lookup = none →
        ∃ a, readOr current (readEndpoint .listen) (lookup .listen) = .ok a) := by
  cases hraw : lookup .listen with
  | none => simp [Variable.fault?, hraw, readOr]
  | some raw =>
    cases hparse : Endpoint.parse? (trimmed raw) <;>
      simp [Variable.fault?, hraw, readOr, readEndpoint, hparse]

theorem readDefault_fault (lookup : Lookup) :
    (∀ e, Variable.defaultAllow.fault? lookup = some e →
        readOr false (readFlag .defaultAllow) (lookup .defaultAllow) = .error e) ∧
      (Variable.defaultAllow.fault? lookup = none →
        ∃ b, readOr false (readFlag .defaultAllow) (lookup .defaultAllow) = .ok b) := by
  cases hraw : lookup .defaultAllow with
  | none => simp [Variable.fault?, hraw, readOr]
  | some raw =>
    by_cases hyes : lowered (trimmed raw) ∈ yesWords <;>
      by_cases hno : lowered (trimmed raw) ∈ noWords <;>
        simp [Variable.fault?, hraw, readOr, readFlag, hyes, hno]

/-! ## One part -/

namespace Endpoint

theorem fromEnvironment_eq (current : Endpoint) (lookup : Lookup) :
    fromEnvironment current lookup =
      { result := readOr current (readEndpoint .listen) (lookup .listen), asked := [.listen] } := by
  unfold fromEnvironment
  cases h : readOr current (readEndpoint .listen) (lookup .listen) <;>
    simp [Reading.bind_eq, h, Reading.ofExcept]

theorem asks_resolve (given : Option Endpoint) (lookup : Lookup) :
    (resolve given lookup).Asks (if given.isSome then [] else [.listen]) (·.fault? lookup) := by
  cases given with
  | some e => exact .pure e
  | none =>
    obtain ⟨herror, hok⟩ := readListen_fault default lookup
    simp only [resolve, fromEnvironment_eq]
    exact .of_head (by simp) (fun e he => ⟨herror e he, rfl⟩) fun h => ⟨hok h, rfl⟩

theorem local_resolve (given : Option Endpoint) : Reading.Local (resolve given) := by
  cases given with
  | some e => exact .const _
  | none => exact .bind (.ask _) fun _ => .const _

end Endpoint

namespace Declaration

/-- What the variables say when the default is `b`. -/
def ofVariables (lookup : Lookup) (b : Bool) : Declaration where
  defaultAllow := b
  entries := entriesFor .allow (readList ((lookup .allow).getD "")) ++
    entriesFor .deny (readList ((lookup .deny).getD ""))

theorem fromEnvironment_of_ok {lookup : Lookup} {b : Bool}
    (h : readOr false (readFlag .defaultAllow) (lookup .defaultAllow) = .ok b) :
    fromEnvironment lookup =
      { result := .ok (ofVariables lookup b), asked := [.defaultAllow, .allow, .deny] } := by
  simp [fromEnvironment, Reading.bind_eq, Reading.pure_eq, h, ofVariables]

theorem fromEnvironment_of_error {lookup : Lookup} {e : SettingError}
    (h : readOr false (readFlag .defaultAllow) (lookup .defaultAllow) = .error e) :
    fromEnvironment lookup = { result := .error e, asked := [.defaultAllow] } := by
  simp only [fromEnvironment, Reading.bind_eq, h, Reading.ask_bind, Reading.ofExcept_error_bind]
  rfl

theorem fromEnvironment_eq_ok_iff {lookup : Lookup} {d : Declaration} :
    (fromEnvironment lookup).result = .ok d ↔
      ∃ b, readOr false (readFlag .defaultAllow) (lookup .defaultAllow) = .ok b ∧
        ofVariables lookup b = d := by
  cases h : readOr false (readFlag .defaultAllow) (lookup .defaultAllow) with
  | error e => simp [fromEnvironment_of_error h]
  | ok b => simp [fromEnvironment_of_ok h]

theorem asks_resolve (given : Option Declaration) (lookup : Lookup) :
    (resolve given lookup).Asks (if given.isSome then [] else [.defaultAllow, .allow, .deny])
      (·.fault? lookup) := by
  cases given with
  | some d => exact .pure d
  | none =>
    obtain ⟨herror, hok⟩ := readDefault_fault lookup
    refine .of_head (by simp [Variable.fault?]) (fun e he => ?_) fun h => ?_
    · simp [resolve, fromEnvironment_of_error (herror e he)]
    · obtain ⟨b, hb⟩ := hok h
      simp [resolve, fromEnvironment_of_ok hb]

theorem local_resolve (given : Option Declaration) : Reading.Local (resolve given) := by
  cases given with
  | some d => exact .const _
  | none =>
    exact .bind (.ask _) fun _ => .bind (.const _) fun _ => .bind (.ask _) fun _ =>
      .bind (.ask _) fun _ => .const _

end Declaration

/-! ## Both parts -/

theorem RuleFlags.given_eq_ok_iff {f : RuleFlags} {a : Option Declaration} :
    f.given = .ok a ↔
      (f.isEmpty = true ∧ a = none) ∨
        ∃ d, f.isEmpty = false ∧ f.toDeclaration = .ok d ∧ a = some d := by
  unfold given
  cases f.isEmpty <;> simp [@eq_comm _ a]

namespace Settings

/-- The variables that flags leave to be asked for. -/
def needed (flags : RuleFlags) (listen : Option String) : List Variable :=
  (if listen.isSome then [] else [.listen]) ++
    if flags.isEmpty then [.defaultAllow, .allow, .deny] else []

/-- Each part is what the highest layer says that has a say in it. -/
structure Layered (flags : RuleFlags) (listen : Option String) (lookup : Lookup) (s : Settings) :
    Prop where
  listen_flag : ∀ raw, listen = some raw → Endpoint.parse? raw = some s.listen
  listen_variable : listen = none → ∀ raw, lookup .listen = some raw →
    Endpoint.parse? (trimmed raw) = some s.listen
  listen_default : listen = none → lookup .listen = none →
    s.listen = .v4 ⟨[127, 0, 0, 1], rfl⟩ 8080
  access_flags : flags.isEmpty = false → flags.toDeclaration = .ok s.access
  access_variables : flags.isEmpty = true →
    s.access = .ofVariables lookup s.access.defaultAllow
  default_variable : flags.isEmpty = true → ∀ raw, lookup .defaultAllow = some raw →
    lowered (trimmed raw) ∈ if s.access.defaultAllow then yesWords else noWords
  default_unset : flags.isEmpty = true → lookup .defaultAllow = none →
    s.access.defaultAllow = false

theorem readListen_eq_ok_iff {listen : Option String} {l : Option Endpoint} :
    readListen listen = .ok l ↔
      (listen = none ∧ l = none) ∨
        ∃ raw e, listen = some raw ∧ Endpoint.parse? raw = some e ∧ l = some e := by
  cases listen with
  | none => simp [readListen, eq_comm]
  | some raw => cases h : Endpoint.parse? raw <;> simp [readListen, h, eq_comm]

section
variable {flags : RuleFlags} {listen : Option String} {lookup : Lookup}

theorem ofFlags_of_bad_listen {raw : String} (h : Endpoint.parse? raw = none) :
    ofFlags flags (some raw) lookup = { result := .error (.badListen raw), asked := [] } := by
  simp only [ofFlags, Reading.bind_eq, readListen, h, Reading.ofExcept_error_bind]
  rfl

theorem ofFlags_of_bad_flags {l : Option Endpoint} {e : FlagError} (hl : readListen listen = .ok l)
    (hgiven : flags.isEmpty = false) (he : flags.toDeclaration = .error e) :
    ofFlags flags listen lookup = { result := .error (.badFlags e), asked := [] } := by
  have herror : flags.given = .error (.badFlags e) := by
    simp [RuleFlags.given, hgiven, he, Except.map, Except.mapError]
  simp only [ofFlags, Reading.bind_eq, hl, herror, Reading.ofExcept_ok_bind,
    Reading.ofExcept_error_bind]
  rfl

theorem ofFlags_of_ok {l : Option Endpoint} {a : Option Declaration}
    (hl : readListen listen = .ok l) (ha : flags.given = .ok a) :
    ofFlags flags listen lookup = (resolve l a lookup).mapError .badSetting := by
  simp [ofFlags, Reading.bind_eq, hl, ha]

theorem resolve_result_eq_ok_iff {l : Option Endpoint} {a : Option Declaration} {s : Settings} :
    (resolve l a lookup).result = .ok s ↔
      (Endpoint.resolve l lookup).result = .ok s.listen ∧
        (Declaration.resolve a lookup).result = .ok s.access := by
  simp only [resolve, Reading.bind_eq, Reading.pure_eq, Reading.result_bind_eq_ok_iff]
  constructor
  · rintro ⟨e, he, d, hd, hs⟩
    obtain rfl := Except.ok.inj hs
    exact ⟨he, hd⟩
  · rintro ⟨he, hd⟩
    exact ⟨s.listen, he, s.access, hd, rfl⟩

theorem ofFlags_result_eq_ok_iff {s : Settings} :
    (ofFlags flags listen lookup).result = .ok s ↔
      ∃ l a, readListen listen = .ok l ∧ flags.given = .ok a ∧
        (Endpoint.resolve l lookup).result = .ok s.listen ∧
        (Declaration.resolve a lookup).result = .ok s.access := by
  simp only [← resolve_result_eq_ok_iff]
  constructor
  · intro h
    simp only [ofFlags, Reading.bind_eq, Reading.result_bind_eq_ok_iff, Reading.result_ofExcept,
      Reading.mapError, mapError_eq_ok_iff] at h
    obtain ⟨l, hl, a, ha, hs⟩ := h
    exact ⟨l, a, hl, ha, hs⟩
  · rintro ⟨l, a, hl, ha, hs⟩
    rw [ofFlags_of_ok hl ha]
    exact mapError_eq_ok_iff.mpr hs

theorem layered_of_ok {s : Settings} (h : (ofFlags flags listen lookup).result = .ok s) :
    s.Layered flags listen lookup := by
  obtain ⟨l, a, hl, ha, hlisten, haccess⟩ := ofFlags_result_eq_ok_iff.mp h
  have hvariable : listen = none → readOr Endpoint.default (readEndpoint .listen) (lookup .listen) =
      .ok s.listen := by
    rintro rfl
    obtain rfl := Except.ok.inj hl
    simpa only [Endpoint.resolve, Endpoint.fromEnvironment_eq] using hlisten
  have hvariables : flags.isEmpty = true →
      readOr false (readFlag .defaultAllow) (lookup .defaultAllow) = .ok s.access.defaultAllow ∧
        s.access = .ofVariables lookup s.access.defaultAllow := by
    intro hempty
    rcases RuleFlags.given_eq_ok_iff.mp ha with ⟨_, rfl⟩ | ⟨d, hgiven, _, _⟩
    · obtain ⟨b, hb, hd⟩ := Declaration.fromEnvironment_eq_ok_iff.mp haccess
      rw [← hd]
      exact ⟨hb, rfl⟩
    · rw [hempty] at hgiven
      cases hgiven
  constructor
  · rintro raw rfl
    rcases readListen_eq_ok_iff.mp hl with ⟨hnone, _⟩ | ⟨_, e, hraw, he, rfl⟩
    · cases hnone
    · obtain rfl := Option.some.inj hraw
      rw [he, ← Except.ok.inj hlisten]
  · intro hnone raw hraw
    exact readEndpoint_eq_ok_iff.mp ((readOr_eq_ok_iff.mp (hvariable hnone)).1 raw hraw)
  · intro hnone hunset
    exact ((readOr_eq_ok_iff.mp (hvariable hnone)).2 hunset).symm
  · intro hgiven
    rcases RuleFlags.given_eq_ok_iff.mp ha with ⟨hempty, _⟩ | ⟨d, _, hd, rfl⟩
    · rw [hgiven] at hempty
      cases hempty
    · rw [hd, ← Except.ok.inj haccess]
  · exact fun hempty => (hvariables hempty).2
  · intro hempty raw hraw
    exact readFlag_eq_ok_iff.mp ((readOr_eq_ok_iff.mp (hvariables hempty).1).1 raw hraw)
  · intro hempty hunset
    exact ((readOr_eq_ok_iff.mp (hvariables hempty).1).2 hunset).symm

theorem asks_resolve (l : Option Endpoint) (a : Option Declaration) (lookup : Lookup) :
    (resolve l a lookup).Asks
      ((if l.isSome then [] else [.listen]) ++
        if a.isSome then [] else [.defaultAllow, .allow, .deny]) (·.fault? lookup) := by
  unfold resolve
  refine (Endpoint.asks_resolve l lookup).bind fun e _ => ?_
  rw [← List.append_nil (if a.isSome then [] else _)]
  exact (Declaration.asks_resolve a lookup).bind fun d _ => .pure _

theorem asks_ofFlags {l : Option Endpoint} {a : Option Declaration} (hl : readListen listen = .ok l)
    (ha : flags.given = .ok a) :
    (ofFlags flags listen lookup).Asks (needed flags listen)
      fun v => (v.fault? lookup).map .badSetting := by
  have hsome : listen.isSome = l.isSome := by
    rcases readListen_eq_ok_iff.mp hl with ⟨rfl, rfl⟩ | ⟨_, _, rfl, _, rfl⟩ <;> rfl
  have hempty : flags.isEmpty = a.isNone := by
    rcases RuleFlags.given_eq_ok_iff.mp ha with ⟨h, rfl⟩ | ⟨_, h, _, rfl⟩ <;> simp [h]
  have hneeded : needed flags listen =
      (if l.isSome then [] else [.listen]) ++
        if a.isSome then [] else [.defaultAllow, .allow, .deny] := by
    unfold needed
    rw [hsome, hempty]
    cases a <;> rfl
  rw [ofFlags_of_ok hl ha, hneeded]
  exact (asks_resolve l a lookup).mapError _

end

theorem local_ofFlags (flags : RuleFlags) (listen : Option String) :
    Reading.Local (ofFlags flags listen) :=
  .bind (.const _) fun l => .bind (.const _) fun a =>
    .mapError (.bind (Endpoint.local_resolve l) fun _ =>
      .bind (Declaration.local_resolve a) fun _ => .const _) _

theorem asked_subset_needed (flags : RuleFlags) (listen : Option String) (lookup : Lookup) :
    (ofFlags flags listen lookup).asked ⊆ needed flags listen := by
  cases hl : readListen listen with
  | error e => simp [ofFlags, Reading.bind_eq, hl]
  | ok l =>
    cases ha : flags.given with
    | error e => simp [ofFlags, Reading.bind_eq, hl, ha]
    | ok a => exact (asks_ofFlags hl ha).asked_subset

/-- Flags first, then the variables of the parts that no flag settles, in order and up to the first
fault. Nothing but what was asked for has a say. -/
theorem layers_in_order (flags : RuleFlags) (listen : Option String) (lookup : Lookup) :
    (∀ raw, listen = some raw → Endpoint.parse? raw = none →
        ofFlags flags listen lookup = { result := .error (.badListen raw), asked := [] }) ∧
      ((∀ raw, listen = some raw → Endpoint.parse? raw ≠ none) →
        (∀ e, flags.isEmpty = false → flags.toDeclaration = .error e →
          ofFlags flags listen lookup = { result := .error (.badFlags e), asked := [] }) ∧
        ((flags.isEmpty = false → ∃ d, flags.toDeclaration = .ok d) →
          (ofFlags flags listen lookup).Asks (needed flags listen)
            fun v => (v.fault? lookup).map .badSetting)) ∧
      (∀ s, (ofFlags flags listen lookup).result = .ok s → s.Layered flags listen lookup) ∧
      (∀ lookup', (∀ v ∈ (ofFlags flags listen lookup).asked, lookup' v = lookup v) →
        ofFlags flags listen lookup' = ofFlags flags listen lookup) ∧
      ∀ lookup', (∀ v ∈ needed flags listen, lookup' v = lookup v) →
        ofFlags flags listen lookup' = ofFlags flags listen lookup := by
  refine ⟨?_, fun hlisten => ?_, fun s => layered_of_ok, local_ofFlags flags listen lookup, ?_⟩
  · rintro raw rfl
    exact ofFlags_of_bad_listen
  · obtain ⟨l, hl⟩ : ∃ l, readListen listen = .ok l := by
      cases listen with
      | none => exact ⟨none, rfl⟩
      | some raw =>
        obtain ⟨e, he⟩ := Option.ne_none_iff_exists'.mp (hlisten raw rfl)
        exact ⟨some e, readListen_eq_ok_iff.mpr (.inr ⟨raw, e, rfl, he, rfl⟩)⟩
    refine ⟨fun e => ofFlags_of_bad_flags hl, fun hflags => ?_⟩
    obtain ⟨a, ha⟩ : ∃ a, flags.given = .ok a := by
      cases hempty : flags.isEmpty with
      | true => exact ⟨none, RuleFlags.given_eq_ok_iff.mpr (.inl ⟨hempty, rfl⟩)⟩
      | false =>
        obtain ⟨d, hd⟩ := hflags hempty
        exact ⟨some d, RuleFlags.given_eq_ok_iff.mpr (.inr ⟨d, hempty, hd, rfl⟩)⟩
    exact asks_ofFlags hl ha
  · intro lookup' hsame
    apply local_ofFlags
    exact fun v hv => hsame v (asked_subset_needed flags listen lookup hv)

/-- A default that can be read settles the rules with the lists; one that cannot matters only where
the rules come from the environment. -/
theorem layers_with_default_on_or_maybe :
    (∃ s, (ofFlags {} none fun
          | .defaultAllow => some " On"
          | .deny => some "1.2.3.4, ,fe80::/10"
          | _ => none).result = .ok s ∧
        s.listen = .v4 ⟨[127, 0, 0, 1], rfl⟩ 8080 ∧
        s.access = ⟨true, [⟨.deny, "1.2.3.4"⟩, ⟨.deny, "fe80::/10"⟩]⟩) ∧
      (ofFlags {} none (Function.update (fun _ => none) .defaultAllow (some "Maybe "))).result =
        .error (.badSetting (.notBoolean .defaultAllow "maybe")) ∧
      (ofFlags {} none (Function.update (fun _ => none) .defaultAllow (some "Maybe "))).asked =
        [.listen, .defaultAllow] ∧
      ofFlags { deny := ["1.2.3.4"] } none
          (Function.update (fun _ => none) .defaultAllow (some "Maybe ")) =
        ofFlags { deny := ["1.2.3.4"] } none fun _ => none := by
  constructor
  · obtain ⟨_, hread, hlayered, _⟩ := layers_in_order {} none fun
      | .defaultAllow => some " On"
      | .deny => some "1.2.3.4, ,fe80::/10"
      | _ => none
    obtain ⟨⟨s, hs⟩, _⟩ := ((hread (by simp)).2 (by simp [RuleFlags.isEmpty])).value (by decide)
    have hs' := hlayered s hs
    refine ⟨s, hs, hs'.listen_default rfl rfl, ?_⟩
    have hdefault : s.access.defaultAllow = true := by
      have hword := hs'.default_variable rfl _ rfl
      revert hword
      cases s.access.defaultAllow <;> decide
    rw [hs'.access_variables rfl, hdefault]
    rfl
  · obtain ⟨_, hread, _⟩ := layers_in_order {} none
      (Function.update (fun _ => none) .defaultAllow (some "Maybe "))
    obtain ⟨herror, hasked⟩ := ((hread (by simp)).2 (by simp [RuleFlags.isEmpty])).fault [.listen]
      .defaultAllow [.allow, .deny] (.badSetting (.notBoolean .defaultAllow "maybe")) rfl
      (by simp [Variable.fault?]) rfl
    obtain ⟨_, _, _, _, hsame⟩ := layers_in_order { deny := ["1.2.3.4"] } none fun _ => none
    refine ⟨herror, hasked, hsame _ fun v hv => Function.update_of_ne ?_ _ _⟩
    rintro rfl
    simp [needed, RuleFlags.isEmpty] at hv

end Settings

end PeerAccess
