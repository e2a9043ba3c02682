import PeerAccess.Proofs.HostBits
import PeerAccess.Proofs.Undecided

/-!
# The log as a record

The log of a policy in use is enough to know its rules: they are what was added since the last
clear. A line shows a rule by its action and its pattern, and these compile to the same rule again.
So two policies that show the same rules and have the same default agree on everybody.
-/

namespace PeerAccess

open Text

namespace Event

/-! ## Events that change rules -/

/-- The rules of a policy that had `rules` before it reported this. -/
def replay (rules : List Rule) : Event → List Rule
  | ruleAdded r => rules ++ [r]
  | rulesCleared => []
  | _ => rules

def added? : Event → Option Rule
  | ruleAdded r => some r
  | _ => none

theorem foldl_replay (events : List Event) :
    events.foldl replay [] = (events.rtakeWhile (· ≠ rulesCleared)).filterMap added? := by
  induction events using List.reverseRecOn with
  | nil => rfl
  | append_singleton events e ih =>
    rw [List.foldl_append, List.foldl_cons, List.foldl_nil, ih, List.rtakeWhile_concat]
    cases e <;> simp [replay, added?]

/-! ## Lines told apart -/

/-- The words that every text of this form begins with. -/
def head : Event → String
  | hostBits _ => "Peer pattern '"
  | ruleAdded _ => "ACL rule added: "
  | rulesCleared => "ACL rules cleared"
  | policyApplied _ _ => "Applying ACL configuration: "
  | ruleMatched _ _ => "Peer "
  | peerRejected _ _ _ => "Peer "
  | listening _ => "Peerguard listening on http://"
  | listenerClosed => "Peerguard listener shutting down"
  | policyLoaded _ _ => "Loaded "
  | ruleLoaded _ => "  "

def opening (e : Event) : String := e.level.word ++ " " ++ e.head

theorem exists_line_eq (e : Event) : ∃ rest, e.line = e.opening ++ rest := by
  cases e with
  | rulesCleared => exact ⟨"", String.append_empty.symm⟩
  | listenerClosed => exact ⟨"", String.append_empty.symm⟩
  | _ =>
    unfold opening line head text
    simp only [String.append_assoc]
    exact ⟨_, rfl⟩

theorem starts_with_opening (e : Event) : e.opening.toList <+: e.line.toList := by
  obtain ⟨rest, h⟩ := e.exists_line_eq
  rw [h, String.toList_append]
  exact List.prefix_append _ _

def clearedLine : String := "INFO ACL rules cleared"

def addedStart : String := "DEBUG ACL rule added: "

theorem eq_rulesCleared_of_opening {e : Event} (h : e.opening.toList <+: clearedLine.toList) :
    e = rulesCleared := by
  cases e with
  | rulesCleared => rfl
  | _ => exact absurd h (by simp only [opening, head, level, Level.word]; decide)

theorem line_eq_clearedLine_iff (e : Event) : e.line = clearedLine ↔ e = rulesCleared := by
  constructor
  · intro h
    exact eq_rulesCleared_of_opening (h ▸ e.starts_with_opening)
  · rintro rfl
    rfl

/-- The rest of a line that says that a rule was added. -/
def addedText? (line : String) : Option String :=
  if addedStart.toList <+: line.toList then
    some (String.ofList (line.toList.drop addedStart.length))
  else none

theorem eq_ruleAdded_of_addedStart {e : Event} (h : addedStart.toList <+: e.line.toList) :
    ∃ r, e = ruleAdded r := by
  have hopening := List.prefix_or_prefix_of_prefix h e.starts_with_opening
  cases e with
  | ruleAdded r => exact ⟨r, rfl⟩
  | _ => exact absurd hopening (by simp only [opening, head, level, Level.word]; decide)

theorem addedText?_line (e : Event) : addedText? e.line = e.added?.map toString := by
  unfold addedText?
  cases e with
  | ruleAdded r =>
    have hline : (ruleAdded r).line.toList = addedStart.toList ++ (toString r).toList := by
      rw [← String.toList_append]
      rfl
    rw [hline, if_pos (List.prefix_append _ _), ← String.length_toList, List.drop_left,
      String.ofList_toList]
    rfl
  | _ =>
    refine if_neg fun h => ?_
    obtain ⟨r, hr⟩ := eq_ruleAdded_of_addedStart h
    cases hr

/-- What the lines after the last clear say was added. -/
def recorded (lines : List String) : List String :=
  (lines.rtakeWhile (· ≠ clearedLine)).filterMap addedText?

theorem recorded_lines (events : List Event) :
    recorded (events.map line) = (events.foldl replay []).map toString := by
  have hcleared : (fun l => decide (l ≠ clearedLine)) ∘ line =
      fun e => decide (e ≠ rulesCleared) := by
    funext e
    simp [line_eq_clearedLine_iff]
  have hadded : addedText? ∘ line = fun e => e.added?.map toString := funext addedText?_line
  unfold recorded
  rw [foldl_replay, List.rtakeWhile, ← List.map_reverse, List.takeWhile_map, hcleared,
    ← List.map_reverse, List.filterMap_map, hadded, List.map_filterMap]
  rfl

end Event

/-! ## Rules from displays -/

namespace Rule

/-- The rule that a display shows. -/
def ofDisplay? (s : String) : Option Rule := do
  let (word, pattern) ← cut ' ' s.toList
  let action ← Action.ofWord? (String.ofList word)
  (compile action (String.ofList pattern)).toOption

theorem toList_toString (r : Rule) :
    (toString r).toList = r.action.word.toList ++ ' ' :: r.pattern.toList := by
  simp [toString]

theorem Compiled.ofDisplay?_toString {r : Rule} (h : r.Compiled) :
    ofDisplay? (toString r) = some r := by
  have hword : ' ' ∉ r.action.word.toList := by cases r.action <;> decide
  have haction : Action.ofWord? r.action.word = some r.action := by cases r.action <;> rfl
  unfold ofDisplay?
  rw [toList_toString, cut_append _ hword]
  simp only [Option.bind_eq_bind, Option.bind_some, String.ofList_toList, haction, h.compile_eq]
  rfl

theorem filterMap_ofDisplay? {rs : List Rule} (h : ∀ r ∈ rs, r.Compiled) :
    (rs.map toString).filterMap ofDisplay? = rs := by
  induction rs with
  | nil => rfl
  | cons r rs ih =>
    rw [List.forall_mem_cons] at h
    rw [List.map_cons, List.filterMap_cons_some h.1.ofDisplay?_toString, ih h.2]

theorem eq_of_displays {rs qs : List Rule} (hrs : ∀ r ∈ rs, r.Compiled)
    (hqs : ∀ q ∈ qs, q.Compiled) (h : rs.map toString = qs.map toString) : rs = qs := by
  rw [← filterMap_ofDisplay? hrs, h, filterMap_ofDisplay? hqs]

end Rule

/-! ## Warnings -/

namespace Entry

/-- The warnings about entries, one for each that strays past its prefix. -/
def warningLines (es : List Entry) : List String :=
  (es.filter fun e => StraysPastPrefix e.pattern).map fun e =>
    s!"WARN Peer pattern '{e.pattern}' has host bits set past its prefix and will never match"

theorem lines_flatMap_warnings (es : List Entry) :
    (es.flatMap warnings).map Event.line = warningLines es := by
  unfold warningLines
  induction es with
  | nil => rfl
  | cons e es ih =>
    rw [List.flatMap_cons, List.map_append, ih, e.warnings_eq]
    by_cases h : StraysPastPrefix e.pattern
    · rw [if_pos h, List.filter_cons_of_pos (by simpa using h)]
      rfl
    · rw [if_neg h, List.filter_cons_of_neg (by simpa using h)]
      rfl

end Entry

namespace Declaration

/-- The line about a declaration that is put in place. -/
def announcement (d : Declaration) : String :=
  let count := d.entries.length
  let word := (Action.ofVerdict d.defaultAllow).word
  s!"INFO Applying ACL configuration: {count} rule(s), default {word}"

end Declaration

/-! ## Calls and what they report -/

namespace Policy

def callEvents (p : Policy) : Call → List Event
  | .change c => (p.change c).events
  | .allows x => p.decisionEvents x
  | .admits ip => p.admissionEvents ip
  | .list => []

/-- What calls report one after the other. -/
def log (p : Policy) : List Call → List Event
  | [] => []
  | c :: cs => p.callEvents c ++ (p.call c).log cs

def callLines (p : Policy) (c : Call) : List String := (p.callEvents c).map Event.line

def logLines (p : Policy) (cs : List Call) : List String := (p.log cs).map Event.line

section
variable {e : Entry} (p q : Policy)

theorem add_events_of_ok {r : Rule} (h : e.compile = .ok r) :
    (p.add e).events = e.warnings ++ [.ruleAdded r] := by
  unfold add
  rw [h]

theorem add_events_of_error {err : PatternError} (h : e.compile = .error err) :
    (p.add e).events = [] := by
  unfold add
  rw [h]

theorem add_events_eq (e : Entry) : (p.add e).events = (q.add e).events := by
  cases h : e.compile with
  | ok r => rw [add_events_of_ok p h, add_events_of_ok q h]
  | error err => rw [add_events_of_error p h, add_events_of_error q h]

theorem add_error_ne_none_iff (e : Entry) : (p.add e).error ≠ none ↔ (p.add e).events = [] := by
  cases h : e.compile with
  | ok r =>
    rw [add_events_of_ok p h, (add_of_becomes (Entry.compile_eq_ok_iff.mp h) p).2]
    simp
  | error err =>
    rw [add_events_of_error p h, (add_of_error h p).2]
    simp

end

theorem addChain_events (p : Policy) (es : List Entry) :
    (p.addChain es).events =
      (es.takeWhile fun e => e.compile.isOk).flatMap fun e => (p.add e).events := by
  induction es generalizing p with
  | nil => rfl
  | cons e es ih =>
    cases h : e.compile with
    | error err =>
      rw [List.takeWhile_cons_of_neg (by rw [h]; exact Bool.false_ne_true),
        addChain_of_error (add_of_error h p).2]
      exact p.add_events_of_error h
    | ok r =>
      have hnone : (p.add e).error = none := (add_of_becomes (Entry.compile_eq_ok_iff.mp h) p).2
      rw [List.takeWhile_cons_of_pos (by rw [h]; rfl), List.flatMap_cons,
        addChain_of_no_error hnone]
      simp only [ih, add_events_eq (p.add e).policy p]

theorem apply_lines_of_become {d : Declaration} {rs : List Rule}
    (h : List.Forall₂ Entry.Becomes d.entries rs) (p : Policy) :
    p.callLines (.change (.apply d)) =
      Entry.warningLines d.entries ++ [d.announcement] := by
  unfold callLines callEvents change apply
  dsimp only
  rw [Declaration.compile_of_become h, Declaration.warnings_of_become h, List.map_append,
    Entry.lines_flatMap_warnings, ← h.length_eq]
  rfl

theorem apply_lines_of_first_bad {d : Declaration} {good rest : List Entry} {e : Entry}
    {rs : List Rule} {err : PatternError} (hentries : d.entries = good ++ e :: rest)
    (hgood : List.Forall₂ Entry.Becomes good rs) (he : e.compile = .error err) (p : Policy) :
    p.callLines (.change (.apply d)) = Entry.warningLines good := by
  unfold callLines callEvents change apply
  dsimp only
  rw [Declaration.compile_of_first_bad hentries hgood he,
    Declaration.warnings_of_first_bad hentries hgood he]
  exact Entry.lines_flatMap_warnings good

/-! ## Verdicts explained -/

/-- The lines about a verdict. They show the first rule that accepts the address, and its word is
the verdict; where no rule does, there is nothing to show. -/
inductive Explains (p : Policy) (x : Octets) (allowed : Bool) : List String → Prop
  | undecided (hnone : ∀ r ∈ p.rules, r.accepts x = false) (hdefault : allowed = p.defaultAllow) :
      Explains p x allowed []
  | decided {r : Rule} (hfirst : FirstMatch p.rules x r)
      (hword : r.action.word = (Action.ofVerdict allowed).word) :
      Explains p x allowed [s!"TRACE Peer {Event.octetsText x} matched rule {r}"]

theorem explains_decision (p : Policy) (x : Octets) :
    p.Explains x (p.allows x) ((p.decisionEvents x).map Event.line) := by
  unfold decisionEvents
  cases h : p.decider x with
  | none => exact .undecided (decider_eq_none_iff.mp h) (allows_of_no_decider h)
  | some r =>
    refine .decided (decider_eq_some_iff.mp h) ?_
    rw [allows_of_decider h, r.ofVerdict_verdict]

/-! ## Replaying -/

theorem replay_warnings (e : Entry) (rules : List Rule) :
    e.warnings.foldl Event.replay rules = rules := by
  rw [e.warnings_eq]
  split <;> rfl

theorem replay_add (p : Policy) (e : Entry) :
    (p.add e).events.foldl Event.replay p.rules = (p.add e).policy.rules := by
  cases h : e.compile with
  | ok r =>
    rw [p.add_events_of_ok h, (add_of_becomes (Entry.compile_eq_ok_iff.mp h) p).1,
      List.foldl_append, replay_warnings]
    rfl
  | error err =>
    rw [p.add_events_of_error h, (add_of_error h p).1]
    rfl

theorem replay_addChain (p : Policy) (es : List Entry) :
    (p.addChain es).events.foldl Event.replay p.rules = (p.addChain es).policy.rules := by
  induction es generalizing p with
  | nil => rfl
  | cons e es ih =>
    have hfirst := p.replay_add e
    cases h : (p.add e).error with
    | some err =>
      rw [addChain_of_error h]
      exact hfirst
    | none =>
      rw [addChain_of_no_error h, List.foldl_append, hfirst, ih]

theorem replay_decision (p : Policy) (x : Octets) (rules : List Rule) :
    (p.decisionEvents x).foldl Event.replay rules = rules := by
  unfold decisionEvents
  cases p.decider x <;> rfl

/-- A policy follows from its predecessor and from what the call between them reports. -/
theorem replay_callEvents {c : Call} (h : ∀ d, c ≠ .change (.apply d)) (p : Policy) :
    (p.callEvents c).foldl Event.replay p.rules = (p.call c).rules := by
  cases c with
  | change c =>
    cases c with
    | add e => exact p.replay_add e
    | addChain es => exact p.replay_addChain es
    | clear => rfl
    | setDefault b => rfl
    | apply d => exact absurd rfl (h d)
  | allows x => exact p.replay_decision x p.rules
  | admits ip => exact p.replay_decision ip.canonical.octets p.rules
  | list => rfl

theorem replay_log {cs : List Call} (h : ∀ d, Call.change (.apply d) ∉ cs) (p : Policy) :
    (p.log cs).foldl Event.replay p.rules = (p.afterCalls cs).rules := by
  induction cs generalizing p with
  | nil => rfl
  | cons c cs ih =>
    simp only [List.mem_cons, not_or] at h
    have hc : ∀ d, c ≠ .change (.apply d) := fun d => Ne.symm (h d).1
    unfold log
    rw [List.foldl_append, replay_callEvents hc, ih fun d => (h d).2]
    rfl

theorem displays_eq_recorded {cs : List Call} (h : ∀ d, Call.change (.apply d) ∉ cs) (b : Bool) :
    (afterCalls { defaultAllow := b } cs).rules.map toString =
      Event.recorded (logLines { defaultAllow := b } cs) := by
  unfold logLines
  rw [Event.recorded_lines, ← replay_log h]

theorem eq_of_displays {b b' : Bool} {cs cs' : List Call}
    (hdisplays : (afterCalls { defaultAllow := b } cs).rules.map toString =
      (afterCalls { defaultAllow := b' } cs').rules.map toString)
    (hdefault : (afterCalls { defaultAllow := b } cs).defaultAllow =
      (afterCalls { defaultAllow := b' } cs').defaultAllow) :
    afterCalls { defaultAllow := b } cs = afterCalls { defaultAllow := b' } cs' := by
  have hrules := Rule.eq_of_displays (compiled_afterCalls (s := .fresh b) rfl nofun cs)
    (compiled_afterCalls (s := .fresh b') rfl nofun cs') hdisplays
  exact congrArg₂ Policy.mk hrules hdefault

/-- The rules of a policy that started empty are what its log says was added since the last clear.
What fails to be added leaves no line, a decision leaves one about the rule that made it, and what
the rules show settles all verdicts together with the default. Putting a declaration in place is
announced behind the warnings about its entries, which end where reading them does. -/
theorem log_tells_rules {cs : List Call} (h : ∀ d, Call.change (.apply d) ∉ cs) (b : Bool) :
    (afterCalls { defaultAllow := b } cs).rules.map toString =
        Event.recorded (logLines { defaultAllow := b } cs) ∧
      (∀ (p : Policy) e,
        (p.change (.add e)).error ≠ none ↔ p.callLines (.change (.add e)) = []) ∧
      (∀ (p : Policy) es,
        p.callLines (.change (.addChain es)) =
          (es.takeWhile fun e => e.compile.isOk).flatMap fun e =>
            p.callLines (.change (.add e))) ∧
      (∀ (p : Policy) x, p.Explains x (p.allows x) (p.callLines (.allows x))) ∧
      (∀ (p : Policy) ip,
        p.Explains ip.canonical.octets (p.admits ip) (p.callLines (.admits ip))) ∧
      (∀ b' cs',
        (afterCalls { defaultAllow := b } cs).rules.map toString =
          (afterCalls { defaultAllow := b' } cs').rules.map toString →
        (afterCalls { defaultAllow := b } cs).defaultAllow =
          (afterCalls { defaultAllow := b' } cs').defaultAllow →
        ∀ x, (afterCalls { defaultAllow := b } cs).allows x =
          (afterCalls { defaultAllow := b' } cs').allows x) ∧
      ∀ (p : Policy) d,
        ((∀ e ∈ d.entries, ∃ q, Pattern.parse e.pattern = .ok q) ∧
          (p.change (.apply d)).error = none ∧
          p.callLines (.change (.apply d)) =
            Entry.warningLines d.entries ++ [d.announcement]) ∨
        ∃ k err, d.FailsAt k err ∧ (p.change (.apply d)).error = some err ∧
          p.callLines (.change (.apply d)) = Entry.warningLines (d.entries.take k) := by
  refine ⟨displays_eq_recorded h b, fun p e => ?_, fun p es => ?_, fun p x => p.explains_decision x,
    fun p ip => p.explains_decision ip.canonical.octets, ?_, fun p d => ?_⟩
  · rw [callLines, List.map_eq_nil_iff]
    exact p.add_error_ne_none_iff e
  · exact (congrArg (List.map Event.line) (p.addChain_events es)).trans List.map_flatMap
  · intro b' cs' hdisplays hdefault x
    rw [eq_of_displays hdisplays hdefault]
  · rcases Entry.all_become_or_first_bad d.entries with
      ⟨rs, hrs⟩ | ⟨good, e, rest, err, rs, hentries, hgood, he⟩
    · refine .inl ⟨Declaration.readable_of_become hrs, ?_, apply_lines_of_become hrs p⟩
      unfold change apply
      dsimp only
      rw [Declaration.compile_of_become hrs]
    · refine .inr ⟨good.length, err, Declaration.failsAt_of_first_bad hentries hgood he, ?_, ?_⟩
      · unfold change apply
        dsimp only
        rw [Declaration.compile_of_first_bad hentries hgood he]
      · rw [apply_lines_of_first_bad hentries hgood he, hentries, List.take_left]

/-- A rule that was cleared, one with host bits, two that fail and a question on the way. -/
theorem log_tells_rules_after_clear :
    ∃ cs : List Call,
      cs = [.change (.add ⟨.allow, "1.2.3.4"⟩), .change .clear,
        .change (.add ⟨.deny, "10.0.0.1/8"⟩), .allows [10, 1, 2, 3],
        .change (.add ⟨.allow, "10.0.0.0/33"⟩),
        .change (.addChain [⟨.allow, "10.*.*.*"⟩, ⟨.deny, "1.2.3"⟩, ⟨.deny, "1.2.3.4"⟩])] ∧
      (∀ d, Call.change (.apply d) ∉ cs) ∧
      Event.recorded (logLines { defaultAllow := true } cs) =
        ["deny 10.0.0.1/8", "allow 10.*.*.*"] ∧
      (afterCalls { defaultAllow := true } cs).defaultAllow = true ∧
      ∀ x, (afterCalls { defaultAllow := true } cs).allows x =
        (afterCalls { defaultAllow := true }
          [.change (.add ⟨.deny, "10.0.0.1/8"⟩),
            .change (.add ⟨.allow, "10.*.*.*"⟩)]).allows x := by
  have h : ∀ d, Call.change (.apply d) ∉
      [.change (.add ⟨.allow, "1.2.3.4"⟩), .change .clear,
        .change (.add ⟨.deny, "10.0.0.1/8"⟩), .allows [10, 1, 2, 3],
        .change (.add ⟨.allow, "10.0.0.0/33"⟩),
        .change (.addChain [⟨.allow, "10.*.*.*"⟩, ⟨.deny, "1.2.3"⟩, ⟨.deny, "1.2.3.4"⟩])] := by
    simp
  obtain ⟨hrecorded, _, _, _, _, hverdicts, _⟩ := log_tells_rules h true
  exact ⟨_, rfl, h, hrecorded.symm.trans rfl, rfl, hverdicts true _ rfl rfl⟩

end Policy

end PeerAccess
