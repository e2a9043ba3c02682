import PeerAccess.Check
import PeerAccess.Http.Handler
import PeerAccess.Proofs.Export
import PeerAccess.Proofs.Layers

/-!
# Front ends

The same rules may come from flags or from the environment, and a verdict may be printed or decide
about a request. All of these ways give the same policy, and so the same verdicts.
-/

namespace PeerAccess

open Text Environment

/-! ## Printing and guarding -/

theorem Policy.ofDeclaration_eq_ok_iff {d : Declaration} {p : Policy} :
    ofDeclaration d = .ok p ↔ d.compile = .ok p.rules ∧ p.defaultAllow = d.defaultAllow := by
  unfold ofDeclaration
  rw [map_eq_ok_iff]
  constructor
  · rintro ⟨rs, hrs, rfl⟩
    exact ⟨hrs, rfl⟩
  · rintro ⟨hrs, hdefault⟩
    exact ⟨p.rules, hrs, by rw [← hdefault]⟩

/-- The verdicts on addresses that have been read. -/
def Policy.report (p : Policy) (ips : List (String × Ip)) : Report :=
  ips.map fun (a, ip) => { address := a, allowed := p.admits ip }

/-- The loop prints the verdicts and their conjunction is its result. -/
theorem judgeAll_eq (p : Policy) (soFar : Bool) (ips : List (String × Ip)) :
    judgeAll p soFar ips =
      { result := .ok (soFar && (p.report ips).allAllowed)
        printed := p.report ips
        events := ips.flatMap fun (_, ip) => p.admissionEvents ip } := by
  induction ips generalizing soFar with
  | nil => simp [judgeAll, Policy.report, Report.allAllowed, pure, Checking.ofExcept]
  | cons x ips ih =>
    obtain ⟨a, ip⟩ := x
    have hstep : judgeAll p soFar ((a, ip) :: ips) =
        { result := (judgeAll p (soFar && p.admits ip) ips).result
          printed := { address := a, allowed := p.admits ip } ::
            (judgeAll p (soFar && p.admits ip) ips).printed
          events := p.admissionEvents ip ++ (judgeAll p (soFar && p.admits ip) ips).events } := rfl
    rw [hstep, ih]
    simp [Policy.report, Report.allAllowed, Bool.and_assoc]

theorem runCheck_of_bad_flags {flags : RuleFlags} {e : FlagError} (addresses : List String)
    (h : flags.toDeclaration = .error e) :
    runCheck flags addresses = { result := .error (.badFlags e), events := flags.warnings } := by
  simp only [runCheck, h, Except.mapError, Checking.ofExcept_error_bind]
  rfl

section
variable {flags : RuleFlags} {d : Declaration} {p : Policy} {addresses : List String}
  (hd : flags.toDeclaration = .ok d) (hp : Policy.ofDeclaration d = .ok p)
include hd hp

theorem runCheck_of_bad_address {e : CheckError} (hips : addresses.mapM readAddress = .error e) :
    runCheck flags addresses =
      { result := .error e, events := flags.warnings ++ d.warnings } := by
  simp [runCheck, hd, hp, hips, Except.mapError]

variable {ips : List (String × Ip)} (hips : addresses.mapM readAddress = .ok ips)
include hips

theorem runCheck_of_ok :
    runCheck flags addresses =
      { result := .ok (p.report ips).allAllowed
        printed := p.report ips
        events := flags.warnings ++ (d.warnings ++ ips.flatMap fun (_, ip) => p.admissionEvents ip)
        } := by
  simp [runCheck, hd, hp, hips, Except.mapError, judgeAll_eq]

theorem check_of_ok : check flags addresses = .ok (p.report ips) := by
  unfold check
  rw [runCheck_of_ok hd hp hips]
  rfl

end

theorem readAddress_of_parse {t : String} {ip : Ip} (h : Ip.parse? (trimmed t) = some ip) :
    readAddress t = .ok (trimmed t, ip) := by
  unfold readAddress
  rw [h]

theorem check_singleton {flags : RuleFlags} {d : Declaration} {p : Policy} {t : String} {ip : Ip}
    (hd : flags.toDeclaration = .ok d) (hp : Policy.ofDeclaration d = .ok p)
    (ht : Ip.parse? (trimmed t) = some ip) :
    (check flags [t]).map Report.text =
      .ok s!"{trimmed t} {(Action.ofVerdict (p.admits ip)).word}\n" := by
  have hips : [t].mapM readAddress = .ok [(trimmed t, ip)] := by
    simp [readAddress_of_parse ht]
  rw [check_of_ok hd hp hips]
  simp [Except.map, Policy.report, Report.text, Judgement.line, String.join]

theorem Http.Handler.handle_guard {κ α : Type} (policies : κ → Policy)
    (answer : α → Request → Response) (gate : κ) (next rejection : Handler κ α) (r : Request) :
    let side := if (policies gate).admits r.peer.ip then next else rejection
    ((guard gate next rejection).handle policies answer r).response =
        (side.handle policies answer r).response ∧
      ((guard gate next rejection).handle policies answer r).calls =
        (side.handle policies answer r).calls := by
  simp only [handle]
  cases (policies gate).admits r.peer.ip <;> simp

/-! ## Rules from the environment -/

/-- The environment with these rules in it, and the listen address as it was. -/
def Lookup.withRules (lookup : Lookup) (defaultAllow : Bool) (allow deny : List String) : Lookup
  | .listen => lookup .listen
  | .defaultAllow => some (if defaultAllow then "true" else "false")
  | .allow => some (listText allow)
  | .deny => some (listText deny)

def Declaration.ofLists (b : Bool) (allow deny : List String) : Declaration where
  defaultAllow := b
  entries := entriesFor .allow allow ++ entriesFor .deny deny

theorem fromEnvironment_withRules (lookup : Lookup) (b : Bool) {allow deny : List String}
    (h : ∀ s ∈ allow ++ deny, Listable s) :
    Declaration.fromEnvironment (lookup.withRules b allow deny) =
      { result := .ok (.ofLists b allow deny), asked := [.defaultAllow, .allow, .deny] } := by
  have hflag : readOr false (readFlag .defaultAllow)
      (lookup.withRules b allow deny .defaultAllow) = .ok b := by
    cases b <;> rfl
  have hallow : readList (listText allow) = allow :=
    readList_listText fun s hs => h s (List.mem_append_left _ hs)
  have hdeny : readList (listText deny) = deny :=
    readList_listText fun s hs => h s (List.mem_append_right _ hs)
  rw [Declaration.fromEnvironment_of_ok hflag]
  simp [Declaration.ofVariables, Declaration.ofLists, Lookup.withRules, hallow, hdeny]

theorem RuleFlags.eq_of_no_rules {f : RuleFlags} {d : Declaration} (hrules : f.rules = [])
    (h : f.unchecked = .ok d) : d = .ofLists f.defaultAllow f.allow f.deny := by
  simp only [unchecked, entries, hrules, List.mapM_nil, map_eq_ok_iff, bind_eq_ok_iff,
    pure_eq_ok_iff] at h
  obtain ⟨es, ⟨_, rfl, rfl⟩, rfl⟩ := h
  rfl

theorem RuleFlags.parse_of_mem {f : RuleFlags} {d : Declaration} (hrules : f.rules = [])
    (h : f.toDeclaration = .ok d) : ∀ s ∈ f.allow ++ f.deny, ∃ p, Pattern.parse s = .ok p := by
  obtain ⟨hunchecked, rs, hrs⟩ := toDeclaration_eq_ok_iff.mp h
  have hparse := Declaration.parse_of_compile hrs
  rw [eq_of_no_rules hrules hunchecked] at hparse
  intro s hs
  rcases List.mem_append.mp hs with hs | hs
  · exact hparse ⟨.allow, s⟩ (by simp [Declaration.ofLists, Declaration.entriesFor, hs])
  · exact hparse ⟨.deny, s⟩ (by simp [Declaration.ofLists, Declaration.entriesFor, hs])

namespace Settings

theorem ofFlags_withRules {flags : RuleFlags} {listen : Option String} {lookup : Lookup}
    {s : Settings} (hrules : flags.rules = []) (hflags : flags.toDeclaration = .ok s.access)
    (h : (ofFlags flags listen lookup).result = .ok s) :
    (ofFlags {} listen (lookup.withRules flags.defaultAllow flags.allow flags.deny)).result =
      .ok s := by
  obtain ⟨l, _, hl, _, hlisten, _⟩ := ofFlags_result_eq_ok_iff.mp h
  have hlistable : ∀ s ∈ flags.allow ++ flags.deny, Listable s := by
    intro s hs
    obtain ⟨p, hp⟩ := RuleFlags.parse_of_mem hrules hflags s hs
    exact listable_of_parse hp
  have hfrom := fromEnvironment_withRules lookup flags.defaultAllow hlistable
  have haccess := RuleFlags.eq_of_no_rules hrules
    (RuleFlags.toDeclaration_eq_ok_iff.mp hflags).1
  refine ofFlags_result_eq_ok_iff.mpr ⟨l, none, hl, rfl, ?_, ?_⟩
  · rw [← hlisten]
    cases l with
    | some e => rfl
    | none => simp [Endpoint.resolve, Endpoint.fromEnvironment_eq, Lookup.withRules]
  · rw [haccess]
    simp [Declaration.resolve, hfrom]

/-- What `check` prints about an address is what a guard with the same flags does with its requests,
and the environment may as well hold the rules. -/
theorem front_ends_agree {flags : RuleFlags} {listen : Option String} {lookup : Lookup}
    {s : Settings} (hgiven : flags.isEmpty = false)
    (h : (ofFlags flags listen lookup).result = .ok s) :
    flags.toDeclaration = .ok s.access ∧
      (∃ p, Policy.ofDeclaration s.access = .ok p ∧
        ∀ (t : String) (ip : Ip), Ip.parse? (trimmed t) = some ip →
          ∃ verdict : Action,
            (check flags [t]).map Report.text = .ok s!"{trimmed t} {verdict.word}\n" ∧
              ∀ (κ α : Type) (policies : κ → Policy) (answer : α → Http.Request → Http.Response)
                (gate : κ) (next rejection : Http.Handler κ α) (r : Http.Request),
                policies gate = p → r.peer.ip = ip →
                let side := if verdict = .allow then next else rejection
                ((Http.Handler.guard gate next rejection).handle policies answer r).response =
                    (side.handle policies answer r).response ∧
                  ((Http.Handler.guard gate next rejection).handle policies answer r).calls =
                    (side.handle policies answer r).calls) ∧
      (flags.rules = [] →
        (ofFlags {} listen (lookup.withRules flags.defaultAllow flags.allow flags.deny)).result =
          .ok s) := by
  have hflags := (layered_of_ok h).access_flags hgiven
  obtain ⟨_, rs, hrs⟩ := RuleFlags.toDeclaration_eq_ok_iff.mp hflags
  have hp : Policy.ofDeclaration s.access =
      .ok { rules := rs, defaultAllow := s.access.defaultAllow } :=
    Policy.ofDeclaration_eq_ok_iff.mpr ⟨hrs, rfl⟩
  refine ⟨hflags, ⟨_, hp, fun t ip ht => ?_⟩, fun hrules => ofFlags_withRules hrules hflags h⟩
  refine ⟨_, check_singleton hflags hp ht, ?_⟩
  rintro κ α policies answer gate next rejection r hpolicy rfl
  have hside := Http.Handler.handle_guard policies answer gate next rejection r
  rw [hpolicy] at hside
  simpa [Action.ofVerdict] using hside

/-- Flags win over a deny list in the environment, in print and at the guard. -/
theorem front_ends_agree_against_environment :
    RuleFlags.isEmpty { allow := ["10.0.0.0/8"] } = false ∧
      (ofFlags { allow := ["10.0.0.0/8"] } none fun v =>
          if v = .deny then some "10.*.*.*" else none).result =
        .ok { access := ⟨false, [⟨.allow, "10.0.0.0/8"⟩]⟩ } ∧
      (check { allow := ["10.0.0.0/8"] } [" 10.1.2.3"]).map Report.text =
        .ok "10.1.2.3 allow\n" ∧
      ∃ p, Policy.ofDeclaration ⟨false, [⟨.allow, "10.0.0.0/8"⟩]⟩ = .ok p ∧ ∀ port,
        ((Http.Handler.guard () (.leaf true) (.leaf false)).handle (fun _ => p)
            (fun _ _ => { status := 200 }) ⟨"GET", "/", .v4 ⟨[10, 1, 2, 3], rfl⟩ port⟩).calls =
          [(true, ⟨"GET", "/", .v4 ⟨[10, 1, 2, 3], rfl⟩ port⟩)] := by
  have hresult : (ofFlags { allow := ["10.0.0.0/8"] } none fun v =>
      if v = .deny then some "10.*.*.*" else none).result =
      .ok { access := ⟨false, [⟨.allow, "10.0.0.0/8"⟩]⟩ } := rfl
  obtain ⟨_, ⟨p, hp, hverdict⟩, _⟩ := front_ends_agree rfl hresult
  obtain ⟨verdict, hprinted, hguard⟩ := hverdict " 10.1.2.3" (.v4 ⟨[10, 1, 2, 3], rfl⟩) rfl
  cases verdict with
  | deny => exact absurd hprinted (by decide)
  | allow =>
    refine ⟨rfl, hresult, hprinted, p, hp, fun port => ?_⟩
    exact (hguard Unit Bool _ _ () _ _ ⟨"GET", "/", .v4 ⟨[10, 1, 2, 3], rfl⟩ port⟩ rfl rfl).2

end Settings

end PeerAccess
