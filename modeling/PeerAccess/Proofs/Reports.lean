import PeerAccess.CommandLine
import PeerAccess.Proofs.AddressPatterns
import PeerAccess.Proofs.PatternText

/-!
# Reports

What `check` prints, and when. A report comes whole or not at all; its text has no room for doubt,
for no address has a blank in it, and the exit code is the conjunction of its lines.
-/

namespace PeerAccess

open Text

/-- The text between line ends, cut at spaces. What stands behind the last line end is a line of its
own. -/
def cells (text : String) : List (List String) :=
  (text.toList.splitOn '\n').map fun line => (line.splitOn ' ').map String.ofList

def Judgement.cells (j : Judgement) : List String := [j.address, (Action.ofVerdict j.allowed).word]

/-- `j` is the verdict of `p` on the address that `raw` is with blanks around it. -/
structure Judges (p : Policy) (raw : String) (j : Judgement) : Prop where
  address : j.address = trimmed raw
  allowed : ∃ ip, Ip.parse? (trimmed raw) = some ip ∧ j.allowed = p.admits ip

/-- `text` is no address; `raw` is the text. -/
def NoAddress (text raw : String) : Prop := Ip.parse? (trimmed text) = none ∧ raw = text

/-- How a check ends, with a message if it fails, and what it has printed by then. No bad pattern is
left to be found once the flags are read. -/
inductive CheckEnds (flags : RuleFlags) (addresses : List String) :
    Except String Bool → Report → Prop
  | badFlags {e : FlagError} (refused : flags.toDeclaration = .error e) :
      CheckEnds flags addresses (.error e.message) []
  | badAddress {d : Declaration} {raw : String} (declared : flags.toDeclaration = .ok d)
      (first : FirstBad NoAddress addresses raw) :
      CheckEnds flags addresses (.error s!"invalid address: \"{raw}\"") []
  | report {d : Declaration} {p : Policy} {r : Report} {allAllowed : Bool}
      (declared : flags.toDeclaration = .ok d) (policy : Policy.ofDeclaration d = .ok p)
      (judged : List.Forall₂ (Judges p) addresses r)
      (conjunction : allAllowed = true ↔ ∀ j ∈ r, j.allowed = true) :
      CheckEnds flags addresses (.ok allAllowed) r

/-- What a check that ends in `x` and has printed `r` leaves on the output, and its exit code. -/
structure CheckExit (x : Except String Bool) (r : Report) (code : UInt32) (out : String) :
    Prop where
  output : out = r.text
  zero : code = 0 ↔ (∃ b, x = .ok b) ∧ ∀ j ∈ r, j.allowed = true
  one : code = 1 ↔ (∃ b, x = .ok b) ∧ ∃ j ∈ r, j.allowed = false
  two : code = 2 ↔ (∃ e, x = .error e) ∧ out = ""

/-! ## Addresses -/

theorem IsAddressChar.not_blank {c : Char} (h : IsAddressChar c) : isBlank c = false := by
  apply IsPatternChar.not_blank
  rcases h with hdigit | rfl | rfl
  · exact .inl hdigit
  · exact .inr (by decide)
  · exact .inr (by decide)

theorem Ip.isAddressChar_of_parse {s : String} {ip : Ip} (h : parse? s = some ip) :
    ∀ c ∈ s.toList, IsAddressChar c := by
  cases ip with
  | v4 a => exact Ipv4.isAddressChar_of_read (read_of_parse_v4 h)
  | v6 a => exact Ipv6.isAddressChar_of_read (read_of_parse_v6 h)

theorem readAddress_eq_error_iff {text : String} {e : CheckError} :
    readAddress text = .error e ↔ ∃ raw, NoAddress text raw ∧ .badAddress raw = e := by
  unfold readAddress NoAddress
  cases Ip.parse? (trimmed text) <;> simp

theorem readAddresses_eq_error_iff {addresses : List String} {e : CheckError} :
    addresses.mapM readAddress = .error e ↔
      ∃ raw, FirstBad NoAddress addresses raw ∧ .badAddress raw = e := by
  rw [← firstBad_image_iff]
  exact mapM_eq_error_iff fun _ _ _ => readAddress_eq_error_iff

theorem readAddress_eq_ok_iff {raw : String} {x : String × Ip} :
    readAddress raw = .ok x ↔ x.1 = trimmed raw ∧ Ip.parse? (trimmed raw) = some x.2 := by
  obtain ⟨a, ip⟩ := x
  unfold readAddress
  cases Ip.parse? (trimmed raw) <;> simp [eq_comm]

/-! ## Verdicts -/

theorem judges_iff {p : Policy} {raw : String} {j : Judgement} :
    Judges p raw j ↔
      ∃ x, readAddress raw = .ok x ∧ j = { address := x.1, allowed := p.admits x.2 } := by
  simp only [readAddress_eq_ok_iff]
  constructor
  · rintro ⟨haddress, ip, hip, hallowed⟩
    exact ⟨(trimmed raw, ip), ⟨rfl, hip⟩, by rw [← haddress, ← hallowed]⟩
  · rintro ⟨x, ⟨hx, hip⟩, rfl⟩
    exact ⟨hx, x.2, hip, rfl⟩

theorem forall₂_judges_iff {p : Policy} {addresses : List String} {r : Report} :
    List.Forall₂ (Judges p) addresses r ↔
      ∃ ips, addresses.mapM readAddress = .ok ips ∧ p.report ips = r := by
  simp only [mapM_eq_ok_iff]
  constructor
  · intro h
    induction h with
    | nil => exact ⟨[], .nil, rfl⟩
    | cons hj _ ih =>
      obtain ⟨x, hx, rfl⟩ := judges_iff.mp hj
      obtain ⟨ips, hips, rfl⟩ := ih
      exact ⟨x :: ips, .cons hx hips, rfl⟩
  · rintro ⟨ips, hips, rfl⟩
    induction hips with
    | nil => exact .nil
    | cons hx _ ih => exact .cons (judges_iff.mpr ⟨_, hx, rfl⟩) ih

theorem exists_policy_of_toDeclaration {flags : RuleFlags} {d : Declaration}
    (h : flags.toDeclaration = .ok d) : ∃ p, Policy.ofDeclaration d = .ok p := by
  obtain ⟨_, rs, hrs⟩ := RuleFlags.toDeclaration_eq_ok_iff.mp h
  exact ⟨{ rules := rs, defaultAllow := d.defaultAllow },
    Policy.ofDeclaration_eq_ok_iff.mpr ⟨hrs, rfl⟩⟩

section
variable {flags : RuleFlags} {addresses : List String}

theorem exists_checkEnds (flags : RuleFlags) (addresses : List String) :
    ∃ x r, CheckEnds flags addresses x r := by
  cases hd : flags.toDeclaration with
  | error e => exact ⟨_, _, .badFlags hd⟩
  | ok d =>
    obtain ⟨p, hp⟩ := exists_policy_of_toDeclaration hd
    cases hips : addresses.mapM readAddress with
    | error e =>
      obtain ⟨raw, hfirst, _⟩ := readAddresses_eq_error_iff.mp hips
      exact ⟨_, _, .badAddress hd hfirst⟩
    | ok ips =>
      refine ⟨.ok (p.report ips).allAllowed, p.report ips, .report hd hp ?_ ?_⟩
      · exact forall₂_judges_iff.mpr ⟨ips, hips, rfl⟩
      · simp [Report.allAllowed]

/-- Nothing is printed before the last thing that can go wrong. -/
theorem run_of_checkEnds {x : Except String Bool} {r : Report} (h : CheckEnds flags addresses x r) :
    (runCheck flags addresses).result.mapError CheckError.message = x ∧
      (runCheck flags addresses).printed = r := by
  cases h with
  | badFlags hd =>
    rw [runCheck_of_bad_flags addresses hd]
    exact ⟨rfl, rfl⟩
  | badAddress hd hfirst =>
    obtain ⟨p, hp⟩ := exists_policy_of_toDeclaration hd
    have hips := readAddresses_eq_error_iff.mpr ⟨_, hfirst, rfl⟩
    rw [runCheck_of_bad_address hd hp hips]
    exact ⟨rfl, rfl⟩
  | report hd hp hjudged hconj =>
    obtain ⟨ips, hips, rfl⟩ := forall₂_judges_iff.mp hjudged
    rw [runCheck_of_ok hd hp hips]
    refine ⟨congrArg Except.ok ?_, rfl⟩
    rw [Bool.eq_iff_iff, hconj]
    simp [Report.allAllowed]

theorem checkEnds_iff {x : Except String Bool} {r : Report} :
    (runCheck flags addresses).result.mapError CheckError.message = x ∧
        (runCheck flags addresses).printed = r ↔ CheckEnds flags addresses x r := by
  refine ⟨?_, run_of_checkEnds⟩
  rintro ⟨rfl, rfl⟩
  obtain ⟨x, r, h⟩ := exists_checkEnds flags addresses
  obtain ⟨hx, hr⟩ := run_of_checkEnds h
  rwa [hx, hr]

end

/-! ## Printed lines -/

theorem not_mem_of_no_blanks {c : Char} {cs : List Char} (h : ∀ c ∈ cs, isBlank c = false)
    (hc : isBlank c = true) : c ∉ cs := by
  intro hmem
  rw [h c hmem] at hc
  cases hc

theorem Action.no_blanks_in_word (a : Action) : ∀ c ∈ a.word.toList, isBlank c = false := by
  have hall : (a.word.toList.all fun c => !isBlank c) = true := by cases a <;> rfl
  simpa using hall

theorem word_eq_allow_iff {allowed : Bool} :
    (Action.ofVerdict allowed).word = "allow" ↔ allowed = true := by
  cases allowed <;> decide

theorem Judgement.toList_line (j : Judgement) :
    j.line.toList =
      (j.address.toList ++ ' ' :: (Action.ofVerdict j.allowed).word.toList) ++ ['\n'] := by
  simp [line, toString]

theorem cells_line_append {j : Judgement} (h : ∀ c ∈ j.address.toList, isBlank c = false)
    (text : String) : cells (j.line ++ text) = j.cells :: cells text := by
  have hword := (Action.ofVerdict j.allowed).no_blanks_in_word
  have hline : '\n' ∉ j.address.toList ++ ' ' :: (Action.ofVerdict j.allowed).word.toList := by
    simp only [List.mem_append, List.mem_cons, not_or]
    exact ⟨not_mem_of_no_blanks h rfl, by decide, not_mem_of_no_blanks hword rfl⟩
  unfold cells Judgement.cells
  rw [String.toList_append, j.toList_line, List.append_assoc, List.singleton_append,
    List.splitOn_append_cons_self_of_not_mem hline, List.map_cons,
    List.splitOn_append_cons_self_of_not_mem (not_mem_of_no_blanks h rfl),
    List.splitOn_eq_singleton (not_mem_of_no_blanks hword rfl)]
  simp

theorem Report.cells_text {r : Report} (h : ∀ j ∈ r, ∀ c ∈ j.address.toList, isBlank c = false) :
    cells r.text = r.map Judgement.cells ++ [[""]] := by
  induction r with
  | nil => rfl
  | cons j r ih =>
    rw [List.forall_mem_cons] at h
    have htext : Report.text (j :: r) = j.line ++ Report.text r := by simp [text]
    rw [htext, cells_line_append h.1, ih h.2, List.map_cons, List.cons_append]

theorem Judges.no_blanks {p : Policy} {raw : String} {j : Judgement} (h : Judges p raw j) :
    ∀ c ∈ j.address.toList, isBlank c = false := by
  obtain ⟨ip, hip, _⟩ := h.allowed
  rw [h.address]
  exact fun c hc => (Ip.isAddressChar_of_parse hip c hc).not_blank

theorem no_blanks_of_judged {p : Policy} {addresses : List String} {r : Report}
    (h : List.Forall₂ (Judges p) addresses r) :
    ∀ j ∈ r, ∀ c ∈ j.address.toList, isBlank c = false := by
  induction h with
  | nil => simp
  | cons hj _ ih => exact List.forall_mem_cons.mpr ⟨hj.no_blanks, ih⟩

theorem all_allowed_iff_lines {r : Report} :
    (∀ j ∈ r, j.allowed = true) ↔ ∀ line ∈ r.map Judgement.cells, line.getLast? = some "allow" := by
  simp [Judgement.cells, word_eq_allow_iff]

/-! ## Exit codes -/

theorem checkExit_error (e : String) : CheckExit (.error e) [] 2 "" where
  output := rfl
  zero := by simp
  one := by simp
  two := by simp

theorem checkExit_ok {allAllowed : Bool} {r : Report}
    (h : allAllowed = true ↔ ∀ j ∈ r, j.allowed = true) :
    CheckExit (.ok allAllowed) r (if allAllowed then 0 else 1) r.text where
  output := rfl
  zero := by cases allAllowed <;> simpa using h
  one := by cases allAllowed <;> simpa using h
  two := by cases allAllowed <;> simp

theorem cells_of_checkEnds {flags : RuleFlags} {addresses : List String} {x : Except String Bool}
    {r : Report} (h : CheckEnds flags addresses x r) :
    cells r.text = r.map Judgement.cells ++ [[""]] := by
  cases h with
  | badFlags | badAddress => rfl
  | report _ _ hjudged => exact Report.cells_text (no_blanks_of_judged hjudged)

theorem exit_of_checkEnds {flags : RuleFlags} {addresses : List String} {x : Except String Bool}
    {r : Report} (h : CheckEnds flags addresses x r) (lookup : Lookup) :
    ∃ code out err, (Command.run lookup (.check flags addresses)).effect = .finish code out err ∧
      CheckExit x r code out := by
  obtain ⟨hresult, hprinted⟩ := run_of_checkEnds h
  simp only [Command.run, hprinted]
  cases h with
  | badFlags | badAddress =>
    obtain ⟨e, he, _⟩ := mapError_eq_error_iff.mp hresult
    rw [he]
    exact ⟨_, _, _, rfl, checkExit_error _⟩
  | report _ _ _ hconj =>
    rw [mapError_eq_ok_iff.mp hresult]
    exact ⟨_, _, _, rfl, checkExit_ok hconj⟩

/-- A check prints its whole report or none of it. The lines say for each address, in the order of
the arguments, whether the rules allow it, and they can be told apart again; the exit code says
whether all are allowed, not all are, or there is no report. -/
theorem check_reports (flags : RuleFlags) (addresses : List String) (lookup : Lookup) :
    (∀ d, flags.toDeclaration = .ok d → ∃ p, Policy.ofDeclaration d = .ok p) ∧
      (∀ raw ip, Ip.parse? (trimmed raw) = some ip →
        ∀ c ∈ (trimmed raw).toList, isBlank c = false) ∧
      ∃ x r, (runCheck flags addresses).result.mapError CheckError.message = x ∧
        (runCheck flags addresses).printed = r ∧
        (∀ x' r', CheckEnds flags addresses x' r' ↔ x' = x ∧ r' = r) ∧
        cells r.text = r.map Judgement.cells ++ [[""]] ∧
        (∀ b, x = .ok b →
          (b = true ↔ ∀ line ∈ (cells r.text).dropLast, line.getLast? = some "allow")) ∧
        ∃ code out err, (Command.run lookup (.check flags addresses)).effect =
            .finish code out err ∧
          (∀ args, Command.read args = .ok (.check flags addresses) →
            Command.main args lookup = .finish code out err) ∧
          CheckExit x r code out := by
  obtain ⟨x, r, h⟩ := exists_checkEnds flags addresses
  obtain ⟨hresult, hprinted⟩ := run_of_checkEnds h
  refine ⟨fun d hd => exists_policy_of_toDeclaration hd,
    fun raw ip hip c hc => (Ip.isAddressChar_of_parse hip c hc).not_blank,
    x, r, hresult, hprinted, fun x' r' => ?_, cells_of_checkEnds h, ?_, ?_⟩
  · rw [← checkEnds_iff, hresult, hprinted, eq_comm, @eq_comm _ r]
  · rintro b rfl
    rw [cells_of_checkEnds h, List.dropLast_concat]
    cases h with
    | report _ _ _ hconj => exact hconj.trans all_allowed_iff_lines
  · obtain ⟨code, out, err, hrun, hexit⟩ := exit_of_checkEnds h lookup
    refine ⟨code, out, err, hrun, fun args hargs => ?_, hexit⟩
    unfold Command.main Command.start
    rw [hargs]
    exact hrun

/-- One address is allowed and one is not; and two texts that are no addresses. -/
theorem check_reports_denial_and_bad_address :
    (∃ err, Command.main ["check", "--allow", "10.0.0.0/8", " 10.1.2.3\t", "::ffff:11.0.0.1"]
        (fun _ => none) = .finish 1 "10.1.2.3 allow\n::ffff:11.0.0.1 deny\n" err) ∧
      cells "10.1.2.3 allow\n::ffff:11.0.0.1 deny\n" =
        [["10.1.2.3", "allow"], ["::ffff:11.0.0.1", "deny"], [""]] ∧
      CheckEnds { allow := ["10.0.0.0/8"] } ["10.1.2.3", " x", "y"]
        (.error "invalid address: \" x\"") [] ∧
      ∃ err, Command.main ["check", "--allow", "10.0.0.0/8", "10.1.2.3", " x", "y"]
        (fun _ => none) = .finish 2 "" err := by
  obtain ⟨_, _, _, _, rfl, rfl, _, hcells, _, _, _, err, _, hmain, hexit⟩ :=
    check_reports { allow := ["10.0.0.0/8"] } [" 10.1.2.3\t", "::ffff:11.0.0.1"] fun _ => none
  obtain ⟨_, _, _, _, rfl, rfl, hends, _, _, _, _, err', _, hmain', hexit'⟩ :=
    check_reports { allow := ["10.0.0.0/8"] } ["10.1.2.3", " x", "y"] fun _ => none
  refine ⟨⟨err, ?_⟩, hcells, (hends _ _).mpr ⟨rfl, rfl⟩, err', ?_⟩
  · obtain rfl := hexit.output
    obtain rfl := hexit.one.mpr ⟨⟨false, rfl⟩, _, List.mem_cons_of_mem _ List.mem_cons_self, rfl⟩
    exact hmain _ rfl
  · obtain rfl := hexit'.output
    obtain rfl := hexit'.two.mpr ⟨⟨_, rfl⟩, rfl⟩
    exact hmain' _ rfl

/-! ## The log -/

theorem level_of_mem_warnings {d : Declaration} {e : Event} (h : e ∈ d.warnings) :
    e.level = .warn := by
  obtain ⟨entry, _, he⟩ := List.mem_flatMap.mp h
  unfold Entry.warnings at he
  split at he
  · split at he
    · obtain rfl := List.mem_singleton.mp he
      rfl
    · cases he
  · cases he

theorem log_append_admissions {es : List Event} (h : ∀ e ∈ es, e.level = .warn) (p : Policy)
    (ips : List (String × Ip)) (effect : Command.Effect) :
    Command.Run.log { events := es ++ ips.flatMap fun (_, ip) => p.admissionEvents ip, effect } =
      es.map Event.line := by
  have hwarn : es.filter (fun e => e.level = .info ∨ e.level = .warn) = es :=
    List.filter_eq_self.mpr fun e he => by simp [h e he]
  have hnone : (ips.flatMap fun (_, ip) => p.admissionEvents ip).filter
      (fun e => e.level = .info ∨ e.level = .warn) = [] := by
    rw [List.filter_eq_nil_iff]
    intro e he
    obtain ⟨x, _, hx⟩ := List.mem_flatMap.mp he
    simp [Policy.level_of_mem_admissionEvents hx]
  unfold Command.Run.log
  rw [List.filter_append, hwarn, hnone, List.append_nil]

/-- The patterns are compiled twice and warn each time; verdicts are details. -/
theorem log_of_check {flags : RuleFlags} {d : Declaration} (hd : flags.toDeclaration = .ok d)
    (addresses : List String) (lookup : Lookup) :
    (Command.run lookup (.check flags addresses)).log =
      (d.warnings ++ d.warnings).map Event.line := by
  have hflags : flags.warnings = d.warnings := by
    unfold RuleFlags.warnings
    rw [(RuleFlags.toDeclaration_eq_ok_iff.mp hd).1]
  have hwarn : ∀ e ∈ d.warnings ++ d.warnings, e.level = .warn := by
    intro e he
    rw [List.mem_append, or_self] at he
    exact level_of_mem_warnings he
  obtain ⟨p, hp⟩ := exists_policy_of_toDeclaration hd
  have hevents : ∃ ips : List (String × Ip), (runCheck flags addresses).events =
      d.warnings ++ d.warnings ++ ips.flatMap fun (_, ip) => p.admissionEvents ip := by
    cases hips : addresses.mapM readAddress with
    | error e => exact ⟨[], by simp [runCheck_of_bad_address hd hp hips, hflags]⟩
    | ok ips => exact ⟨ips, by simp [runCheck_of_ok hd hp hips, hflags]⟩
  obtain ⟨ips, hips⟩ := hevents
  simp only [Command.run, hips]
  exact log_append_admissions hwarn p ips _

example : (Command.start ["check", "--allow", "10.0.0.1/8", "10.0.0.1"] fun _ => none).log =
    List.replicate 2 ("WARN Peer pattern '10.0.0.1/8' has host bits set past its prefix " ++
      "and will never match") := rfl

end PeerAccess
