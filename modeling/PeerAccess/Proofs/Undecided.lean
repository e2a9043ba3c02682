import PeerAccess.Proofs.Installation

/-!
# What additions may change

A rule that is added stands behind all others. It reaches the addresses that no rule has decided
about, and those are also all that the default is for.
-/

namespace PeerAccess

/-- No rule accepts `x`. -/
def Policy.Undecided (p : Policy) (x : Octets) : Prop := ∀ r ∈ p.rules, r.accepts x = false

/-- A change that puts rules behind the others and does nothing else. -/
def Change.IsAddition : Change → Prop
  | add _ | addChain _ => True
  | clear | setDefault _ | apply _ => False

namespace Policy

theorem not_undecided_iff {p : Policy} {x : Octets} :
    ¬ p.Undecided x ↔ ∃ r ∈ p.rules, r.accepts x = true := by
  simp [Undecided]

theorem decider_append (p : Policy) (rs : List Rule) (x : Octets) :
    (p.append rs).decider x = (p.decider x).or (rs.find? (·.accepts x)) := by
  unfold decider append
  rw [List.find?_append]

/-! ## Rules behind the others -/

theorem allows_append_of_decided {p : Policy} {x : Octets} (h : ¬ p.Undecided x)
    (rs : List Rule) : (p.append rs).allows x = p.allows x := by
  unfold allows
  rw [decider_append]
  cases hd : p.decider x with
  | none => exact absurd (decider_eq_none_iff.mp hd) h
  | some r => rfl

theorem allows_append_of_undecided {p : Policy} {x : Octets} (h : p.Undecided x)
    (rs : List Rule) : (p.append rs).allows x = (p.replace rs).allows x := by
  unfold allows
  rw [decider_append, decider_eq_none_iff.mpr h]
  rfl

theorem allows_of_undecided {p : Policy} {x : Octets} (h : p.Undecided x) :
    p.allows x = p.defaultAllow :=
  allows_of_no_decider (decider_eq_none_iff.mpr h)

theorem allows_append_singleton {p : Policy} {x : Octets} {r : Rule} (h : p.Undecided x) :
    (p.append [r]).allows x = if r.accepts x = true then r.verdict else p.defaultAllow := by
  rw [allows_append_of_undecided h]
  unfold allows decider replace
  rw [List.find?_cons]
  cases r.accepts x <;> rfl

theorem verdict_ne_iff {r : Rule} {b : Bool} : r.verdict ≠ b ↔ r.action ≠ .ofVerdict b := by
  unfold Rule.verdict Action.ofVerdict
  cases r.action <;> cases b <;> simp [Action.isDeny]

/-- A new rule changes a verdict when it is the first to accept the address and disagrees with the
default. -/
theorem allows_append_ne_iff {p : Policy} {x : Octets} {r : Rule} :
    (p.append [r]).allows x ≠ p.allows x ↔
      p.Undecided x ∧ r.accepts x = true ∧ r.action ≠ .ofVerdict p.defaultAllow := by
  by_cases h : p.Undecided x
  · rw [allows_append_singleton h, allows_of_undecided h, ← verdict_ne_iff]
    cases r.accepts x <;> simp [h]
  · simp [h, allows_append_of_decided h]

theorem allows_setDefault_ne_iff {p : Policy} {x : Octets} {b : Bool} :
    (p.setDefault b).allows x ≠ p.allows x ↔ b ≠ p.defaultAllow ∧ p.Undecided x := by
  by_cases h : p.Undecided x
  · have hset : (p.setDefault b).Undecided x := h
    rw [allows_of_undecided hset, allows_of_undecided h]
    simp [h, setDefault]
  · obtain ⟨r, hr⟩ := Option.ne_none_iff_exists'.mp (mt decider_eq_none_iff.mp h)
    have hset : (p.setDefault b).decider x = some r := hr
    rw [allows_of_decider hset, allows_of_decider hr]
    simp [h]

/-! ## Additions -/

theorem allows_add_of_verdict {p : Policy} {x : Octets} {b : Bool} (h : p.allows x = b)
    (s : String) : (p.add ⟨.ofVerdict b, s⟩).policy.allows x = b := by
  rw [add_policy]
  cases hr : (Entry.mk (.ofVerdict b) s).compile with
  | error err => simpa [Except.toOption, append] using h
  | ok r =>
    have haction : r.action = .ofVerdict b := (Entry.compile_eq_ok_iff.mp hr).action
    by_contra hne
    rw [← h] at hne
    obtain ⟨hx, _, hdefault⟩ := allows_append_ne_iff.mp hne
    rw [← allows_of_undecided hx, h] at hdefault
    exact hdefault haction

theorem change_of_addition {c : Change} (h : c.IsAddition) (p : Policy) :
    (p.change c).policy = p.append c.added := by
  rw [change_policy]
  cases c with
  | add e | addChain es => rfl
  | clear | setDefault b | apply d => exact h.elim

theorem after_additions {cs : List Change} (h : ∀ c ∈ cs, c.IsAddition) (p : Policy) :
    p.after cs = p.append (cs.flatMap Change.added) := by
  unfold after
  induction cs generalizing p with
  | nil => simp [append]
  | cons c cs ih =>
    rw [List.forall_mem_cons] at h
    rw [List.foldl_cons, change_of_addition h.1, ih h.2, List.flatMap_cons]
    simp [append]

/-- Additions and a new default leave every decided address as it is, and of the others they change
those that they have something else to say about. -/
theorem only_undecided_change (p : Policy) :
    (∀ a s q, Pattern.parse s = .ok q →
      (∀ x, (p.change (.add ⟨a, s⟩)).policy.allows x ≠ p.allows x ↔
        p.Undecided x ∧ q.matcher.accepts x = true ∧ a ≠ .ofVerdict p.defaultAllow) ∧
      ∀ ip, (p.change (.add ⟨a, s⟩)).policy.admits ip ≠ p.admits ip ↔
        p.Undecided ip.canonical.octets ∧ q.matcher.accepts ip.canonical.octets = true ∧
          a ≠ .ofVerdict p.defaultAllow) ∧
      (∀ a s err, Pattern.parse s = .error err →
        (p.change (.add ⟨a, s⟩)).Leaves p (some err)) ∧
      (∀ s x, p.allows x = true → (p.change (.add ⟨.allow, s⟩)).policy.allows x = true) ∧
      (∀ s x, p.allows x = false → (p.change (.add ⟨.deny, s⟩)).policy.allows x = false) ∧
      (∀ cs : List Change, (∀ c ∈ cs, c.IsAddition) →
        ∀ x, (∃ r ∈ p.rules, r.accepts x = true) → (p.after cs).allows x = p.allows x) ∧
      ∀ b,
        (∀ x, (p.change (.setDefault b)).policy.allows x ≠ p.allows x ↔
          b ≠ p.defaultAllow ∧ p.Undecided x) ∧
        ∀ ip, (p.change (.setDefault b)).policy.admits ip ≠ p.admits ip ↔
          b ≠ p.defaultAllow ∧ p.Undecided ip.canonical.octets := by
  refine ⟨fun a s q hq => ?_, fun a s err herr => ?_, ?_, ?_, ?_, fun b => ?_⟩
  · have hbecomes : (Entry.mk a s).Becomes ⟨a, s, q.matcher⟩ := ⟨rfl, rfl, by rw [hq]; rfl⟩
    have hpolicy : (p.change (.add ⟨a, s⟩)).policy = p.append [⟨a, s, q.matcher⟩] :=
      (add_of_becomes hbecomes p).1
    rw [hpolicy]
    exact ⟨fun x => allows_append_ne_iff, fun ip => allows_append_ne_iff⟩
  · exact add_of_error (e := ⟨a, s⟩) (Entry.compile_eq_error_iff.mpr herr) p
  · intro s x hx
    exact allows_add_of_verdict hx s
  · intro s x hx
    exact allows_add_of_verdict hx s
  · intro cs hcs x hx
    rw [after_additions hcs]
    exact allows_append_of_decided (not_undecided_iff.mpr hx) _
  · exact ⟨fun x => allows_setDefault_ne_iff, fun ip => allows_setDefault_ne_iff⟩

/-- An address that a rule denies stays out when its whole block is let in afterwards. Its
neighbours are at the mercy of the next rule about them and of the default. -/
theorem only_undecided_change_around_denied_host :
    ∃ p : Policy, p = ⟨[⟨.deny, "10.1.2.3", .exact [10, 1, 2, 3]⟩], true⟩ ∧
      Pattern.parse "10.*.*.*" = .ok (.wildcard .v4 [some 10, none, none, none]) ∧
      (p.change (.add ⟨.deny, "10.*.*.*"⟩)).policy.allows [10, 9, 9, 9] ≠
        p.allows [10, 9, 9, 9] ∧
      Pattern.parse "10.0.0.0/33" = .error ⟨"10.0.0.0/33", .lengthOutOfRange 33 32⟩ ∧
      (p.change (.add ⟨.deny, "10.0.0.0/33"⟩)).Leaves p
        (some ⟨"10.0.0.0/33", .lengthOutOfRange 33 32⟩) ∧
      p.allows [10, 9, 9, 9] = true ∧
      (p.change (.add ⟨.allow, "10.9.*.*"⟩)).policy.allows [10, 9, 9, 9] = true ∧
      p.allows [10, 1, 2, 3] = false ∧
      (p.change (.add ⟨.deny, "10.9.*.*"⟩)).policy.allows [10, 1, 2, 3] = false ∧
      (p.after [.add ⟨.allow, "10.0.0.0/8"⟩,
          .addChain [⟨.allow, "10.1.2.3"⟩, ⟨.allow, "10.1.2"⟩]]).allows [10, 1, 2, 3] =
        p.allows [10, 1, 2, 3] ∧
      (p.change (.setDefault false)).policy.admits (.v4 ⟨[10, 9, 9, 9], rfl⟩) ≠
        p.admits (.v4 ⟨[10, 9, 9, 9], rfl⟩) := by
  have hparse : Pattern.parse "10.*.*.*" = .ok (.wildcard .v4 [some 10, none, none, none]) := rfl
  have herr : Pattern.parse "10.0.0.0/33" = .error ⟨"10.0.0.0/33", .lengthOutOfRange 33 32⟩ := rfl
  obtain ⟨hadd, hbad, hallow, hdeny, hrun, hdefault⟩ :=
    only_undecided_change ⟨[⟨.deny, "10.1.2.3", .exact [10, 1, 2, 3]⟩], true⟩
  have hundecided :
      Undecided ⟨[⟨.deny, "10.1.2.3", .exact [10, 1, 2, 3]⟩], true⟩ [10, 9, 9, 9] := by
    simp [Undecided, Rule.accepts, Matcher.accepts]
  refine ⟨_, rfl, hparse, ?_, herr, hbad _ _ _ herr, rfl, hallow _ _ rfl, rfl, hdeny _ _ rfl,
    ?_, ?_⟩
  · exact ((hadd _ _ _ hparse).1 _).mpr ⟨hundecided, rfl, by decide⟩
  · exact hrun _ (by simp [Change.IsAddition]) _ ⟨_, List.mem_singleton.mpr rfl, rfl⟩
  · exact ((hdefault false).2 _).mpr ⟨by decide, hundecided⟩

end Policy

end PeerAccess
