import PeerAccess.Proofs.Installation

/-!
# Rule flags as text

What the flags of a command declare, and which of their faults is reported: the form of all ordered
rules is looked at before any pattern. The flags for one action are short for ordered rules at the
end, as long as no blanks are around their patterns.
-/

namespace PeerAccess

open Text

/-- `raw` is the word for an action, a colon, and the pattern. Blanks around both and the case of
the word do not count. -/
def FlagSpells (raw : String) (e : Entry) : Prop :=
  ∃ before after, raw.toList = before ++ ':' :: after ∧ ':' ∉ before ∧
    lowered (String.ofList (trim before)) = e.action.word ∧ e.pattern = String.ofList (trim after)

/-- `raw` is no ordered rule, and this is why. -/
inductive MalformedFlag (raw : String) : FlagError → Prop
  | noColon (colon : ':' ∉ raw.toList) : MalformedFlag raw (.noColon raw)
  | unknownAction {before after : List Char} (parts : raw.toList = before ++ ':' :: after)
      (first : ':' ∉ before) (word : ∀ a : Action, lowered (String.ofList (trim before)) ≠ a.word) :
      MalformedFlag raw (.unknownAction (lowered (String.ofList (trim before))))

def Entry.Unreadable (e : Entry) (err : PatternError) : Prop := Pattern.parse e.pattern = .error err

/-! ## One rule -/

theorem Action.ofWord?_eq_some_iff {w : String} {a : Action} : ofWord? w = some a ↔ w = a.word := by
  unfold ofWord?
  split <;> cases a <;> simp_all [word]

theorem Action.ofWord?_eq_none_iff {w : String} : ofWord? w = none ↔ ∀ a : Action, w ≠ a.word := by
  rw [Option.eq_none_iff_forall_ne_some]
  simp only [ne_eq, ofWord?_eq_some_iff]

namespace Entry

theorem ofFlag_eq_ok_iff {raw : String} {e : Entry} : ofFlag raw = .ok e ↔ FlagSpells raw e := by
  unfold ofFlag
  constructor
  · intro h
    split at h
    · cases h
    · rename_i before after hcut
      obtain ⟨hparts, hfirst⟩ := cut_eq_some_iff.mp hcut
      dsimp only at h
      split at h
      · cases h
      · rename_i hword
        obtain rfl := Except.ok.inj h
        exact ⟨before, after, hparts, hfirst, Action.ofWord?_eq_some_iff.mp hword, rfl⟩
  · rintro ⟨before, after, hparts, hfirst, hword, hpattern⟩
    rw [cut_eq_some_iff.mpr ⟨hparts, hfirst⟩]
    simp only [Action.ofWord?_eq_some_iff.mpr hword, ← hpattern]

theorem ofFlag_eq_error_iff {raw : String} {err : FlagError} :
    ofFlag raw = .error err ↔ MalformedFlag raw err := by
  unfold ofFlag
  constructor
  · intro h
    split at h
    · rename_i hcut
      rw [← Except.error.inj h]
      exact .noColon (cut_eq_none_iff.mp hcut)
    · rename_i before after hcut
      obtain ⟨hparts, hfirst⟩ := cut_eq_some_iff.mp hcut
      dsimp only at h
      split at h
      · rename_i hword
        rw [← Except.error.inj h]
        exact .unknownAction hparts hfirst (Action.ofWord?_eq_none_iff.mp hword)
      · cases h
  · rintro (hcolon | ⟨hparts, hfirst, hword⟩)
    · rw [cut_eq_none_iff.mpr hcolon]
    · rw [cut_eq_some_iff.mpr ⟨hparts, hfirst⟩]
      simp only [Action.ofWord?_eq_none_iff.mpr hword]

end Entry

/-! ## All flags -/

namespace RuleFlags

/-- The entries of the flags for one action: what is allowed, then what is denied. -/
def plain (f : RuleFlags) : List Entry :=
  Declaration.entriesFor .allow f.allow ++ Declaration.entriesFor .deny f.deny

theorem unchecked_eq (f : RuleFlags) :
    f.unchecked = (f.rules.mapM Entry.ofFlag).map fun es =>
      { defaultAllow := f.defaultAllow, entries := es ++ f.plain } := by
  unfold unchecked entries plain
  cases f.rules.mapM Entry.ofFlag <;> simp [bind, Except.bind, pure, Except.pure, Except.map]

theorem unchecked_eq_ok_iff {f : RuleFlags} {d : Declaration} :
    f.unchecked = .ok d ↔ ∃ es, List.Forall₂ FlagSpells f.rules es ∧
      d = { defaultAllow := f.defaultAllow, entries := es ++ f.plain } := by
  rw [unchecked_eq, map_eq_ok_iff]
  simp only [mapM_eq_ok_iff, Entry.ofFlag_eq_ok_iff, @eq_comm _ _ d]

theorem unchecked_eq_error_iff {f : RuleFlags} {err : FlagError} :
    f.unchecked = .error err ↔ FirstBad MalformedFlag f.rules err := by
  rw [unchecked_eq, map_eq_error_iff]
  exact mapM_eq_error_iff fun raw _ e => Entry.ofFlag_eq_error_iff

end RuleFlags

theorem Declaration.compile_eq_error_iff {d : Declaration} {err : PatternError} :
    d.compile = .error err ↔ FirstBad Entry.Unreadable d.entries err :=
  mapM_eq_error_iff fun _ _ _ => Entry.compile_eq_error_iff

theorem Declaration.exists_compile_iff {d : Declaration} :
    (∃ rs, d.compile = .ok rs) ↔ ∀ e ∈ d.entries, ∃ p, Pattern.parse e.pattern = .ok p := by
  have hentry : ∀ e : Entry,
      (∃ r, e.compile = .ok r) ↔ ∃ p, Pattern.parse e.pattern = .ok p := by
    simp [Entry.compile, Rule.compile]
  unfold compile
  rw [exists_mapM_eq_ok_iff]
  simp only [hentry]

namespace RuleFlags

variable {f : RuleFlags}

theorem toDeclaration_eq_error_iff {err : FlagError} :
    f.toDeclaration = .error err ↔
      FirstBad MalformedFlag f.rules err ∨
        ∃ es, List.Forall₂ FlagSpells f.rules es ∧
          ∃ e, FirstBad Entry.Unreadable (es ++ f.plain) e ∧ .badPattern e = err := by
  simp only [toDeclaration, bind_eq_error_iff, unchecked_eq_error_iff, unchecked_eq_ok_iff,
    mapError_eq_error_iff, Declaration.validate, map_eq_error_iff, Declaration.compile_eq_error_iff,
    pure, Except.pure, reduceCtorEq, and_false, exists_false, or_false]
  constructor
  · rintro (h | ⟨_, ⟨es, hes, rfl⟩, h⟩)
    · exact .inl h
    · exact .inr ⟨es, hes, h⟩
  · rintro (h | ⟨es, hes, h⟩)
    · exact .inl h
    · exact .inr ⟨_, ⟨es, hes, rfl⟩, h⟩

/-! ## Ordered rules for all of it -/

/-- The flags for one action, written as ordered rules behind the others. -/
def inOrder (f : RuleFlags) : RuleFlags where
  rules := f.rules ++ f.plain.map Entry.toFlag
  defaultAllow := f.defaultAllow

theorem unchecked_inOrder (h : ∀ e ∈ f.plain, trim e.pattern.toList = e.pattern.toList) :
    f.inOrder.unchecked = f.unchecked := by
  have hplain : (f.plain.map Entry.toFlag).mapM Entry.ofFlag = .ok f.plain := by
    rw [mapM_eq_ok_iff, List.forall₂_map_left_iff, List.forall₂_same]
    exact fun e he => Entry.ofFlag_toFlag (h e he)
  have hnone : f.inOrder.plain = [] := rfl
  rw [unchecked_eq, unchecked_eq, hnone]
  simp only [inOrder, List.mapM_append, hplain, List.append_nil]
  cases f.rules.mapM Entry.ofFlag <;> rfl

theorem toDeclaration_inOrder (h : ∀ e ∈ f.plain, trim e.pattern.toList = e.pattern.toList) :
    f.inOrder.toDeclaration = f.toDeclaration := by
  unfold toDeclaration
  rw [unchecked_inOrder h]

theorem mem_plain_iff {e : Entry} :
    e ∈ f.plain ↔ e.action = .allow ∧ e.pattern ∈ f.allow ∨
      e.action = .deny ∧ e.pattern ∈ f.deny := by
  obtain ⟨a, s⟩ := e
  cases a <;> simp [plain, Declaration.entriesFor]

theorem trim_of_toDeclaration {d : Declaration} (h : f.toDeclaration = .ok d) :
    ∀ e ∈ f.plain, trim e.pattern.toList = e.pattern.toList := by
  obtain ⟨hunchecked, rs, hrs⟩ := toDeclaration_eq_ok_iff.mp h
  obtain ⟨es, _, rfl⟩ := unchecked_eq_ok_iff.mp hunchecked
  intro e he
  obtain ⟨p, hp⟩ := Declaration.parse_of_compile hrs e (List.mem_append_right es he)
  exact trim_of_parse hp

/-- Flags declare their entries in order, or fail with the first malformed rule, or with the first
bad pattern when all rules are well formed. Flags for one action come to ordered rules at the
end. -/
theorem flags_declare (f : RuleFlags) :
    (∀ d, f.toDeclaration = .ok d ↔
      ∃ es, List.Forall₂ FlagSpells f.rules es ∧
        (∀ e ∈ es ++ f.plain, ∃ p, Pattern.parse e.pattern = .ok p) ∧
        d = { defaultAllow := f.defaultAllow, entries := es ++ f.plain }) ∧
      (∀ err, f.toDeclaration = .error err ↔
        FirstBad MalformedFlag f.rules err ∨
          ∃ es, List.Forall₂ FlagSpells f.rules es ∧
            ∃ e, FirstBad Entry.Unreadable (es ++ f.plain) e ∧ .badPattern e = err) ∧
      ((∀ s, s ∈ f.allow ∨ s ∈ f.deny → trimmed s = s) →
        f.inOrder.toDeclaration = f.toDeclaration) ∧
      ∀ d, f.toDeclaration = .ok d → f.inOrder.toDeclaration = .ok d := by
  refine ⟨fun d => ?_, fun err => toDeclaration_eq_error_iff, fun htrim => ?_, fun d hd => ?_⟩
  · rw [toDeclaration_eq_ok_iff, unchecked_eq_ok_iff, Declaration.exists_compile_iff]
    constructor
    · rintro ⟨⟨es, hes, rfl⟩, hparse⟩
      exact ⟨es, hes, hparse, rfl⟩
    · rintro ⟨es, hes, hparse, rfl⟩
      exact ⟨⟨es, hes, rfl⟩, hparse⟩
  · apply toDeclaration_inOrder
    intro e he
    have hs : e.pattern ∈ f.allow ∨ e.pattern ∈ f.deny :=
      (mem_plain_iff.mp he).imp And.right And.right
    rw [← toList_trimmed, htrim _ hs]
  · rw [toDeclaration_inOrder (trim_of_toDeclaration hd), hd]

/-- Colons in a pattern stay, and an unknown action is reported before a bad pattern in front of
it. -/
theorem flags_declare_colons_and_unknown_action :
    (∀ s, s ∈ ["10.0.0.0/8"] ∨ s ∈ ["1.2.3.4"] → trimmed s = s) ∧
      toDeclaration ⟨[" Deny : fe80:0:0:0:*:*:*:*"], ["10.0.0.0/8"], ["1.2.3.4"], true⟩ =
        .ok ⟨true, [⟨.deny, "fe80:0:0:0:*:*:*:*"⟩, ⟨.allow, "10.0.0.0/8"⟩, ⟨.deny, "1.2.3.4"⟩]⟩ ∧
      toDeclaration ⟨[" Deny : fe80:0:0:0:*:*:*:*", "allow:10.0.0.0/8", "deny:1.2.3.4"], [], [],
          true⟩ =
        .ok ⟨true, [⟨.deny, "fe80:0:0:0:*:*:*:*"⟩, ⟨.allow, "10.0.0.0/8"⟩, ⟨.deny, "1.2.3.4"⟩]⟩ ∧
      inOrder ⟨["allow:1.2.3", "permit:1.2.3.4"], ["1.2"], [], true⟩ =
        ⟨["allow:1.2.3", "permit:1.2.3.4", "allow:1.2"], [], [], true⟩ ∧
      toDeclaration ⟨["allow:1.2.3", "permit:1.2.3.4", "allow:1.2"], [], [], true⟩ =
        .error (.unknownAction "permit") := by
  have htrim : ∀ s, s ∈ ["10.0.0.0/8"] ∨ s ∈ ["1.2.3.4"] → trimmed s = s := by
    simp only [List.mem_singleton]
    rintro s (rfl | rfl) <;> rfl
  have hdeclared :
      toDeclaration ⟨[" Deny : fe80:0:0:0:*:*:*:*"], ["10.0.0.0/8"], ["1.2.3.4"], true⟩ =
        .ok ⟨true,
          [⟨.deny, "fe80:0:0:0:*:*:*:*"⟩, ⟨.allow, "10.0.0.0/8"⟩, ⟨.deny, "1.2.3.4"⟩]⟩ := rfl
  have htrim' : ∀ s, s ∈ ["1.2"] ∨ s ∈ ([] : List String) → trimmed s = s := by
    simp only [List.mem_singleton, List.not_mem_nil, or_false]
    rintro s rfl
    rfl
  obtain ⟨_, _, hsame, _⟩ :=
    flags_declare ⟨[" Deny : fe80:0:0:0:*:*:*:*"], ["10.0.0.0/8"], ["1.2.3.4"], true⟩
  obtain ⟨_, herror, hsame', _⟩ :=
    flags_declare ⟨["allow:1.2.3", "permit:1.2.3.4"], ["1.2"], [], true⟩
  refine ⟨htrim, hdeclared, (hsame htrim).trans hdeclared, rfl, (hsame' htrim').trans ?_⟩
  refine (herror _).mpr (.inl ⟨["allow:1.2.3"], _, [], rfl, ?_, ?_⟩)
  · rintro b hb e he
    obtain rfl := List.mem_singleton.mp hb
    exact nomatch Entry.ofFlag_eq_error_iff.mpr he
  · exact Entry.ofFlag_eq_error_iff.mp rfl

end RuleFlags

end PeerAccess
