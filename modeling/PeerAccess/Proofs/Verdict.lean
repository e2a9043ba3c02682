import PeerAccess.Policy.Basic

/-!
# Verdicts

The first rule that accepts an address decides on it. Rules that do not accept the address may come
and go without a difference.
-/

namespace PeerAccess

/-- `r` accepts `x`, and no rule in front of it does. -/
def FirstMatch (rules : List Rule) (x : Octets) (r : Rule) : Prop :=
  ∃ before after, rules = before ++ r :: after ∧ r.accepts x = true ∧
    ∀ q ∈ before, q.accepts x = false

/-- The first match allows, or there is none and the default does. -/
def Policy.FirstMatchAllows (p : Policy) (x : Octets) : Prop :=
  (∃ r, FirstMatch p.rules x r ∧ r.action = .allow) ∨
    (∀ r ∈ p.rules, r.accepts x = false) ∧ p.defaultAllow = true

theorem Rule.ofVerdict_verdict (r : Rule) : Action.ofVerdict r.verdict = r.action := by
  unfold verdict
  cases r.action <;> rfl

namespace Policy

theorem decider_eq_some_iff {p : Policy} {x : Octets} {r : Rule} :
    p.decider x = some r ↔ FirstMatch p.rules x r := by
  unfold decider FirstMatch
  rw [List.find?_eq_some_iff_append]
  constructor
  · rintro ⟨hr, before, after, hrules, hbefore⟩
    exact ⟨before, after, hrules, hr, fun q hq => by simpa using hbefore q hq⟩
  · rintro ⟨before, after, hrules, hr, hbefore⟩
    exact ⟨hr, before, after, hrules, fun q hq => by simpa using hbefore q hq⟩

theorem decider_eq_none_iff {p : Policy} {x : Octets} :
    p.decider x = none ↔ ∀ r ∈ p.rules, r.accepts x = false := by
  unfold decider
  simp [List.find?_eq_none]

theorem allows_of_decider {p : Policy} {x : Octets} {r : Rule} (h : p.decider x = some r) :
    p.allows x = r.verdict := by
  unfold allows
  rw [h]

theorem allows_of_no_decider {p : Policy} {x : Octets} (h : p.decider x = none) :
    p.allows x = p.defaultAllow := by
  unfold allows
  rw [h]

theorem allows_singleton {r : Rule} {x : Octets} (h : r.accepts x = true) (b : Bool) :
    allows { rules := [r], defaultAllow := b } x = r.verdict :=
  allows_of_decider (List.find?_cons_of_pos h)

theorem verdict_eq_true_iff (r : Rule) : r.verdict = true ↔ r.action = .allow := by
  unfold Rule.verdict
  cases r.action <;> simp [Action.isDeny]

theorem allows_iff (p : Policy) (x : Octets) : p.allows x = true ↔ p.FirstMatchAllows x := by
  unfold FirstMatchAllows
  simp only [← decider_eq_some_iff, ← decider_eq_none_iff, ← verdict_eq_true_iff]
  cases h : p.decider x with
  | none => simp [allows_of_no_decider h]
  | some r => simp [allows_of_decider h]

theorem level_of_mem_admissionEvents {p : Policy} {ip : Ip} {e : Event}
    (h : e ∈ p.admissionEvents ip) : e.level = .trace := by
  unfold admissionEvents decisionEvents at h
  rw [Option.mem_toList, Option.map_eq_some_iff] at h
  obtain ⟨r, _, rfl⟩ := h
  rfl

/-! ## Rules of one action -/

theorem allows_cases (p : Policy) (x : Octets) :
    (∃ r ∈ p.rules, r.accepts x = true ∧ p.allows x = r.verdict) ∨
      (¬ ∃ r ∈ p.rules, r.accepts x = true) ∧ p.allows x = p.defaultAllow := by
  cases h : p.decider x with
  | none => exact .inr ⟨by simpa using decider_eq_none_iff.mp h, allows_of_no_decider h⟩
  | some r =>
    obtain ⟨before, after, hrules, hr, _⟩ := decider_eq_some_iff.mp h
    exact .inl ⟨r, by simp [hrules], hr, allows_of_decider h⟩

theorem allows_of_allow_only {p : Policy} (h : ∀ r ∈ p.rules, r.action = .allow) (x : Octets) :
    p.allows x = true ↔ (∃ r ∈ p.rules, r.accepts x = true) ∨ p.defaultAllow = true := by
  rcases p.allows_cases x with ⟨r, hr, haccepts, hallows⟩ | ⟨hnone, hallows⟩
  · rw [hallows, verdict_eq_true_iff]
    exact iff_of_true (h r hr) (.inl ⟨r, hr, haccepts⟩)
  · rw [hallows, or_iff_right hnone]

theorem allows_of_deny_only {p : Policy} (h : ∀ r ∈ p.rules, r.action = .deny) (x : Octets) :
    p.allows x = true ↔ p.defaultAllow = true ∧ ¬ ∃ r ∈ p.rules, r.accepts x = true := by
  rcases p.allows_cases x with ⟨r, hr, haccepts, hallows⟩ | ⟨hnone, hallows⟩
  · rw [hallows, verdict_eq_true_iff, h r hr]
    exact iff_of_false nofun fun hnot => hnot.2 ⟨r, hr, haccepts⟩
  · rw [hallows, and_iff_left hnone]

/-! ## Rules without a say -/

/-- Verdicts on `x` depend on the rules that accept it and on the default. -/
theorem allows_congr {p q : Policy} {x : Octets} (hdefault : p.defaultAllow = q.defaultAllow)
    (hrules : p.rules.filter (·.accepts x) = q.rules.filter (·.accepts x)) :
    p.allows x = q.allows x := by
  have hdecider : p.decider x = q.decider x := by
    unfold decider
    rw [← List.head?_filter, hrules, List.head?_filter]
  unfold allows
  rw [hdecider, hdefault]

theorem allows_filter {p : Policy} {x : Octets} {keep : Rule → Bool}
    (h : ∀ r ∈ p.rules, r.accepts x = true → keep r = true) :
    (p.replace (p.rules.filter keep)).allows x = p.allows x := by
  refine allows_congr rfl ?_
  unfold replace
  rw [List.filter_filter]
  apply List.filter_congr
  intro r hr
  have := h r hr
  cases hx : r.accepts x <;> simp_all

theorem allows_insert {p : Policy} {before rest : List Rule} {r : Rule} {x : Octets}
    (hrules : p.rules = before ++ rest) (hr : r.accepts x = false) :
    (p.replace (before ++ r :: rest)).allows x = p.allows x := by
  refine allows_congr rfl ?_
  unfold replace
  rw [hrules, List.filter_append, List.filter_append, List.filter_cons_of_neg (by simp [hr])]

end Policy

end PeerAccess
