import PeerAccess.Policy.Change
import PeerAccess.Proofs.Steps
import PeerAccess.Proofs.Verdict
import Mathlib.Data.List.DropRight

/-!
# Histories

A policy in use is what its history has left: the list of the last reset with what was added since,
and the last default that was set. Questions and failed changes leave no trace.
-/

namespace PeerAccess

/-- How a policy comes into use. -/
inductive Start
  | fresh (defaultAllow : Bool)
  | declared (declaration : Declaration)
  | given (rules : List Rule)

namespace Start

def policy : Start → Except PatternError Policy
  | fresh b => .ok { defaultAllow := b }
  | declared d => Policy.ofDeclaration d
  | given rs => .ok { rules := rs }

def rules : Start → Except PatternError (List Rule)
  | fresh _ => .ok []
  | declared d => d.compile
  | given rs => .ok rs

def defaultAllow : Start → Bool
  | fresh b => b
  | declared d => d.defaultAllow
  | given _ => false

theorem policy_eq_ok_iff {s : Start} {p : Policy} :
    s.policy = .ok p ↔ s.rules = .ok p.rules ∧ s.defaultAllow = p.defaultAllow := by
  cases s with
  | declared d =>
    simp only [policy, Policy.ofDeclaration, rules, defaultAllow, map_eq_ok_iff]
    constructor
    · rintro ⟨rs, hrs, rfl⟩
      exact ⟨hrs, rfl⟩
    · rintro ⟨hrs, hdefault⟩
      exact ⟨p.rules, hrs, by rw [hdefault]⟩
  | fresh b | given rs =>
    obtain ⟨rs', b'⟩ := p
    simp [policy, rules, defaultAllow]

end Start

/-! ## One change -/

namespace Change

/-- The list that a change puts in place of any other. -/
def reset? : Change → Option (List Rule)
  | clear => some []
  | apply d => d.compile.toOption
  | add _ | addChain _ | setDefault _ => none

/-- The rules that a change puts behind the others. A chain ends at the first bad pattern. -/
def added : Change → List Rule
  | add e => e.compile.toOption.toList
  | addChain es => (es.takeWhile (·.compile.isOk)).filterMap (·.compile.toOption)
  | clear | setDefault _ | apply _ => []

def default? : Change → Option Bool
  | setDefault allow => some allow
  | apply d => d.compile.toOption.map fun _ => d.defaultAllow
  | add _ | addChain _ | clear => none

theorem added_of_reset {c : Change} {rs : List Rule} (h : c.reset? = some rs) : c.added = [] := by
  cases c with
  | clear | setDefault b | apply d => rfl
  | add e | addChain es => cases h

end Change

namespace Policy

theorem add_policy (p : Policy) (e : Entry) :
    (p.add e).policy = p.append e.compile.toOption.toList := by
  unfold add
  cases e.compile <;> simp [append, Except.toOption]

theorem addChain_policy (p : Policy) (es : List Entry) :
    (p.addChain es).policy =
      p.append ((es.takeWhile (·.compile.isOk)).filterMap (·.compile.toOption)) := by
  induction es generalizing p with
  | nil =>
    rw [List.takeWhile_nil, List.filterMap_nil, append, List.append_nil]
    rfl
  | cons e es ih =>
    cases h : e.compile with
    | error err =>
      have herror : (p.add e).error = some err := by simp [add, h]
      rw [addChain_of_error herror, add_policy]
      simp [h, append, Except.isOk, Except.toBool, Except.toOption]
    | ok r =>
      have hnone : (p.add e).error = none := by simp [add, h]
      rw [addChain_of_no_error hnone, ih, add_policy]
      simp [h, append, Except.isOk, Except.toBool, Except.toOption]

theorem change_policy (p : Policy) (c : Change) :
    (p.change c).policy =
      { rules := c.reset?.getD p.rules ++ c.added
        defaultAllow := c.default?.getD p.defaultAllow } := by
  cases c with
  | add e => simp [change, add_policy, append, Change.reset?, Change.added, Change.default?]
  | addChain es =>
    simp [change, addChain_policy, append, Change.reset?, Change.added, Change.default?]
  | clear => simp [change, clear, replace, Change.reset?, Change.added, Change.default?]
  | setDefault b => simp [change, setDefault, Change.reset?, Change.added, Change.default?]
  | apply d =>
    simp only [change, apply, Change.reset?, Change.added, Change.default?]
    cases d.compile <;> simp [Except.toOption]

/-- Only a chain gets anywhere when it fails. -/
theorem change_policy_of_error {p : Policy} {c : Change} (h : (p.change c).error ≠ none)
    (hchain : ∀ es, c ≠ .addChain es) : (p.change c).policy = p := by
  cases c with
  | add e =>
    simp only [change, add] at h ⊢
    cases he : e.compile with
    | error err => rfl
    | ok r => simp [he] at h
  | addChain es => exact absurd rfl (hchain es)
  | clear => simp [change] at h
  | setDefault b => simp [change] at h
  | apply d =>
    simp only [change, apply] at h ⊢
    cases hd : d.compile with
    | error err => rfl
    | ok rs => simp [hd] at h

end Policy

/-! ## Any number of changes -/

def lastReset (cs : List Change) : Option (List Rule) := (cs.filterMap Change.reset?).getLast?

def sinceReset (cs : List Change) : List Change := cs.rtakeWhile (·.reset?.isNone)

def rulesAfter (rules : List Rule) (cs : List Change) : List Rule :=
  (lastReset cs).getD rules ++ (sinceReset cs).flatMap Change.added

def defaultAfter (defaultAllow : Bool) (cs : List Change) : Bool :=
  (cs.filterMap Change.default?).getLast?.getD defaultAllow

theorem rulesAfter_snoc (rules : List Rule) (cs : List Change) (c : Change) :
    rulesAfter rules (cs ++ [c]) = c.reset?.getD (rulesAfter rules cs) ++ c.added := by
  unfold rulesAfter lastReset sinceReset
  rw [List.rtakeWhile_concat, List.filterMap_append]
  cases h : c.reset? with
  | none => simp [h]
  | some rs => simp [h, Change.added_of_reset h]

theorem defaultAfter_snoc (defaultAllow : Bool) (cs : List Change) (c : Change) :
    defaultAfter defaultAllow (cs ++ [c]) = c.default?.getD (defaultAfter defaultAllow cs) := by
  unfold defaultAfter
  rw [List.filterMap_append]
  cases h : c.default? <;> simp [h]

theorem after_eq (p : Policy) (cs : List Change) :
    p.after cs =
      { rules := rulesAfter p.rules cs, defaultAllow := defaultAfter p.defaultAllow cs } := by
  induction cs using List.reverseRecOn with
  | nil => simp [Policy.after, rulesAfter, lastReset, sinceReset, defaultAfter]
  | append_singleton cs c ih =>
    unfold Policy.after at ih ⊢
    rw [List.foldl_append, List.foldl_cons, List.foldl_nil, ih, Policy.change_policy,
      rulesAfter_snoc, defaultAfter_snoc]

/-! ## Where rules come from -/

/-- What some entry compiles to. -/
def Rule.Compiled (r : Rule) : Prop := ∃ e : Entry, e.compile = .ok r

theorem compiled_of_declaration {d : Declaration} {rs : List Rule} (h : d.compile = .ok rs) :
    ∀ r ∈ rs, r.Compiled := by
  have hall := mapM_eq_ok_iff.mp h
  intro r hr
  obtain ⟨i, hi, rfl⟩ := List.getElem_of_mem hr
  exact ⟨_, hall.get (by rw [hall.length_eq]; exact hi) hi⟩

theorem compiled_of_toOption {e : Entry} {r : Rule} (h : e.compile.toOption = some r) :
    r.Compiled := by
  refine ⟨e, ?_⟩
  cases hcompile : e.compile with
  | error err => simp [hcompile, Except.toOption] at h
  | ok r' => simpa [hcompile, Except.toOption] using h

theorem Change.compiled_of_mem_added {c : Change} : ∀ r ∈ c.added, r.Compiled := by
  intro r hr
  cases c with
  | add e => exact compiled_of_toOption (e := e) (by simpa [added] using hr)
  | addChain es =>
    obtain ⟨e, _, he⟩ := List.mem_filterMap.mp hr
    exact compiled_of_toOption he
  | clear | setDefault b | apply d => cases hr

theorem Change.compiled_of_mem_reset {c : Change} {rs : List Rule} (h : c.reset? = some rs) :
    ∀ r ∈ rs, r.Compiled := by
  cases c with
  | clear =>
    obtain rfl := Option.some.inj h
    simp
  | apply d =>
    cases hd : d.compile with
    | error err => simp [reset?, hd, Except.toOption] at h
    | ok rs' =>
      obtain rfl : rs' = rs := by simpa [reset?, hd, Except.toOption] using h
      exact compiled_of_declaration hd
  | add e | addChain es | setDefault b => cases h

theorem Policy.mem_rules_change {p : Policy} {c : Change} {r : Rule}
    (h : r ∈ (p.change c).policy.rules) : r ∈ p.rules ∨ r.Compiled := by
  rw [change_policy] at h
  rcases List.mem_append.mp h with hr | hr
  · cases hreset : c.reset? with
    | none => exact .inl (by simpa [hreset] using hr)
    | some rs => exact .inr (c.compiled_of_mem_reset hreset r (by simpa [hreset] using hr))
  · exact .inr (c.compiled_of_mem_added r hr)

theorem Policy.mem_rules_after {p : Policy} {cs : List Change} {r : Rule}
    (h : r ∈ (p.after cs).rules) : r ∈ p.rules ∨ r.Compiled := by
  unfold after at h
  induction cs generalizing p with
  | nil => exact .inl h
  | cons c cs ih =>
    rcases ih h with hr | hr
    · exact mem_rules_change hr
    · exact .inr hr

/-! ## Calls -/

/-- A change, or a question to the policy as it stands. -/
inductive Call
  | change (change : Change)
  | allows (address : Octets)
  | admits (ip : Ip)
  | list

def Call.change? : Call → Option Change
  | change c => some c
  | allows _ | admits _ | list => none

namespace Policy

def call (p : Policy) : Call → Policy
  | .change c => (p.change c).policy
  | .allows _ | .admits _ | .list => p

def afterCalls (p : Policy) (cs : List Call) : Policy := cs.foldl call p

/-- A question, or a change that fails. -/
def Ignores (p : Policy) : Call → Prop
  | .change c => (p.change c).error ≠ none ∧ ∀ es, c ≠ .addChain es
  | .allows _ | .admits _ | .list => True

theorem call_eq_self {p : Policy} {c : Call} (h : p.Ignores c) : p.call c = p := by
  cases c with
  | change c => exact change_policy_of_error h.1 h.2
  | allows x | admits ip | list => rfl

theorem afterCalls_eq_after (p : Policy) (cs : List Call) :
    p.afterCalls cs = p.after (cs.filterMap Call.change?) := by
  unfold afterCalls after
  induction cs generalizing p with
  | nil => rfl
  | cons c cs ih =>
    rw [List.foldl_cons, ih]
    cases c <;> rfl

theorem afterCalls_of_questions {cs : List Call} (h : ∀ c ∈ cs, c.change? = none) (p : Policy) :
    p.afterCalls cs = p := by
  rw [afterCalls_eq_after, List.filterMap_eq_nil_iff.mpr h]
  rfl

theorem afterCalls_erase {p : Policy} {before : List Call} {c : Call}
    (h : (p.afterCalls before).Ignores c) (rest : List Call) :
    p.afterCalls (before ++ c :: rest) = p.afterCalls (before ++ rest) := by
  unfold afterCalls at h ⊢
  rw [List.foldl_append, List.foldl_cons, call_eq_self h, List.foldl_append]

theorem afterCalls_adds (p : Policy) (es : List Entry) :
    p.afterCalls (es.map fun e => .change (.add e)) =
      p.append (es.filterMap (·.compile.toOption)) := by
  unfold afterCalls
  induction es generalizing p with
  | nil => simp [append]
  | cons e es ih =>
    rw [List.map_cons, List.foldl_cons, ih, call, change, add_policy, List.filterMap_cons]
    cases e.compile.toOption <;> simp [append]

/-- A chain comes to single additions, up to the first that fails. -/
theorem afterCalls_chain (p : Policy) (before : List Call) (es : List Entry) (rest : List Call) :
    p.afterCalls (before ++ .change (.addChain es) :: rest) =
      p.afterCalls (before ++
        (es.takeWhile (·.compile.isOk)).map (fun e => .change (.add e)) ++ rest) := by
  have hadds := fun q : Policy => (q.addChain_policy es).trans (afterCalls_adds q _).symm
  unfold afterCalls at hadds ⊢
  rw [List.foldl_append, List.foldl_cons, List.foldl_append, List.foldl_append, ← hadds]
  rfl

/-- After any calls, rules and default are those of the history, and the first match decides. -/
theorem state_of_history {s : Start} {p : Policy} (h : s.policy = .ok p) (cs : List Call) :
    ∃ rs, s.rules = .ok rs ∧
      (p.afterCalls cs).rules = rulesAfter rs (cs.filterMap Call.change?) ∧
      (p.afterCalls cs).defaultAllow =
        defaultAfter s.defaultAllow (cs.filterMap Call.change?) ∧
      (∀ x, (p.afterCalls cs).allows x = true ↔
        (∃ r, FirstMatch (rulesAfter rs (cs.filterMap Call.change?)) x r ∧ r.action = .allow) ∨
          (∀ r ∈ rulesAfter rs (cs.filterMap Call.change?), r.accepts x = false) ∧
            defaultAfter s.defaultAllow (cs.filterMap Call.change?) = true) ∧
      (∀ before c rest, cs = before ++ c :: rest → (p.afterCalls before).Ignores c →
        p.afterCalls cs = p.afterCalls (before ++ rest)) ∧
      ∀ before es rest, cs = before ++ .change (.addChain es) :: rest →
        p.afterCalls cs = p.afterCalls (before ++
          (es.takeWhile (·.compile.isOk)).map (fun e => .change (.add e)) ++ rest) := by
  obtain ⟨hrules, hdefault⟩ := Start.policy_eq_ok_iff.mp h
  have hafter : p.afterCalls cs =
      { rules := rulesAfter p.rules (cs.filterMap Call.change?)
        defaultAllow := defaultAfter s.defaultAllow (cs.filterMap Call.change?) } := by
    rw [afterCalls_eq_after, after_eq, hdefault]
  refine ⟨p.rules, hrules, by rw [hafter], by rw [hafter], fun x => ?_, ?_, ?_⟩
  · rw [allows_iff, hafter]
    rfl
  · rintro before c rest rfl hc
    exact afterCalls_erase hc rest
  · rintro before es rest rfl
    exact p.afterCalls_chain before es rest

theorem state_of_short_histories :
    (Start.policy (.fresh true) = .ok { defaultAllow := true } ∧
      Policy.afterCalls { defaultAllow := true }
          [.change (.add ⟨.allow, "10.0.0.0/8"⟩), .change .clear,
            .change (.addChain [⟨.deny, "1.2.3.4"⟩, ⟨.allow, "1.2.3"⟩, ⟨.allow, "5.6.7.8"⟩]),
            .allows [1, 2, 3, 4], .change (.apply ⟨false, [⟨.allow, ""⟩]⟩)] =
        { rules := [⟨.deny, "1.2.3.4", .exact [1, 2, 3, 4]⟩], defaultAllow := true }) ∧
    (Start.policy (.declared ⟨false, [⟨.deny, "1.2.3.4"⟩]⟩) =
        .ok { rules := [⟨.deny, "1.2.3.4", .exact [1, 2, 3, 4]⟩] } ∧
      Policy.afterCalls { rules := [⟨.deny, "1.2.3.4", .exact [1, 2, 3, 4]⟩] }
          [.change (.apply ⟨true, [⟨.deny, "5.6.7.8"⟩]⟩), .change (.add ⟨.allow, "1.2.3.4"⟩)] =
        { rules :=
            [⟨.deny, "5.6.7.8", .exact [5, 6, 7, 8]⟩, ⟨.allow, "1.2.3.4", .exact [1, 2, 3, 4]⟩]
          defaultAllow := true }) ∧
    Start.policy (.given [⟨.allow, "", .exact [1, 2, 3, 4]⟩]) =
        .ok { rules := [⟨.allow, "", .exact [1, 2, 3, 4]⟩] } ∧
      Policy.afterCalls { rules := [⟨.allow, "", .exact [1, 2, 3, 4]⟩] }
          [.change (.setDefault true), .change (.add ⟨.deny, "1.2.3.4"⟩)] =
        { rules := [⟨.allow, "", .exact [1, 2, 3, 4]⟩, ⟨.deny, "1.2.3.4", .exact [1, 2, 3, 4]⟩]
          defaultAllow := true } := by
  refine ⟨⟨rfl, ?fresh⟩, ⟨rfl, ?declared⟩, rfl, ?given⟩
  case fresh =>
    obtain ⟨rs, hrs, hrules, hdefault, _⟩ := state_of_history (s := .fresh true) rfl
      [.change (.add ⟨.allow, "10.0.0.0/8"⟩), .change .clear,
        .change (.addChain [⟨.deny, "1.2.3.4"⟩, ⟨.allow, "1.2.3"⟩, ⟨.allow, "5.6.7.8"⟩]),
        .allows [1, 2, 3, 4], .change (.apply ⟨false, [⟨.allow, ""⟩]⟩)]
    obtain rfl := Except.ok.inj hrs
    exact congrArg₂ Policy.mk (hrules.trans rfl) (hdefault.trans rfl)
  case declared =>
    obtain ⟨rs, hrs, hrules, hdefault, _⟩ :=
      state_of_history (s := .declared ⟨false, [⟨.deny, "1.2.3.4"⟩]⟩) rfl
        [.change (.apply ⟨true, [⟨.deny, "5.6.7.8"⟩]⟩), .change (.add ⟨.allow, "1.2.3.4"⟩)]
    obtain rfl := Except.ok.inj hrs
    exact congrArg₂ Policy.mk (hrules.trans rfl) (hdefault.trans rfl)
  case given =>
    obtain ⟨rs, hrs, hrules, hdefault, _⟩ :=
      state_of_history (s := .given [⟨.allow, "", .exact [1, 2, 3, 4]⟩]) rfl
        [.change (.setDefault true), .change (.add ⟨.deny, "1.2.3.4"⟩)]
    obtain rfl := Except.ok.inj hrs
    exact congrArg₂ Policy.mk (hrules.trans rfl) (hdefault.trans rfl)

end Policy

end PeerAccess
