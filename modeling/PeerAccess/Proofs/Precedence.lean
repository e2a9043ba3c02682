import PeerAccess.Proofs.Verdict
import Mathlib.Data.Fintype.Basic
import Mathlib.Logic.Equiv.Fin.Rotate
import Mathlib.Tactic.FinCases

/-!
# Precedence

The order of rules matters only between rules that disagree about some address. The others may
change places, rules that earlier ones cover may go, and a list may be cut anywhere: what the second
part says is then the default of the first.
-/

namespace PeerAccess

namespace Rule

/-- There is an address that one of them allows and the other denies. -/
def Conflicts (r q : Rule) : Prop :=
  r.action ≠ q.action ∧ ∃ x, r.accepts x = true ∧ q.accepts x = true

/-- Rules in front leave no address to `r`. -/
def CoveredBy (r : Rule) (before : List Rule) : Prop :=
  ∀ x, r.accepts x = true → ∃ q ∈ before, q.accepts x = true

theorem verdict_eq_of_not_conflicts {r q : Rule} (h : ¬ r.Conflicts q) {x : Octets}
    (hr : r.accepts x = true) (hq : q.accepts x = true) : r.verdict = q.verdict := by
  unfold Conflicts at h
  have : r.action = q.action := by
    by_contra hne
    exact h ⟨hne, x, hr, hq⟩
  unfold verdict
  rw [this]

end Rule

/-- `qs` are the rules of `rs` at other places. Of two rules that conflict, the one in front stays
in front. -/
structure Rearranges (rs qs : List Rule) (place : Fin rs.length ≃ Fin qs.length) : Prop where
  same : ∀ i, qs[place i] = rs[i]
  keeps : ∀ i j, i < j → rs[i].Conflicts rs[j] → place i < place j

theorem Rearranges.mem_of_mem {rs qs : List Rule} {place : Fin rs.length ≃ Fin qs.length}
    (h : Rearranges rs qs place) {q : Rule} (hq : q ∈ qs) : q ∈ rs := by
  obtain ⟨k, rfl⟩ := List.get_of_mem hq
  obtain ⟨i, rfl⟩ := place.surjective k
  have hi : qs.get (place i) = rs.get i := h.same i
  rw [hi]
  exact List.get_mem rs i

namespace Policy

/-! ## Other places -/

theorem exists_place_of_decider {p : Policy} {x : Octets} {r : Rule} (h : p.decider x = some r) :
    ∃ i : Fin p.rules.length, p.rules[i] = r ∧ r.accepts x = true ∧
      ∀ j : Fin p.rules.length, p.rules[j].accepts x = true → i ≤ j := by
  unfold decider at h
  obtain ⟨hr, i, hi, rfl, hfirst⟩ := List.find?_eq_some_iff_getElem.mp h
  refine ⟨⟨i, hi⟩, rfl, hr, fun j hj => ?_⟩
  by_contra hlt
  have hnot := hfirst j (not_le.mp hlt)
  exact absurd hj (by simpa using hnot)

theorem decider_rearranged_eq_none {p : Policy} {qs : List Rule}
    {place : Fin p.rules.length ≃ Fin qs.length} (h : Rearranges p.rules qs place) {x : Octets}
    (hnone : p.decider x = none) : (p.replace qs).decider x = none := by
  rw [decider_eq_none_iff] at hnone ⊢
  intro q hq
  exact hnone q (h.mem_of_mem hq)

theorem allows_rearranged {p : Policy} {qs : List Rule}
    {place : Fin p.rules.length ≃ Fin qs.length} (h : Rearranges p.rules qs place) (x : Octets) :
    (p.replace qs).allows x = p.allows x := by
  cases hp : p.decider x with
  | none =>
    rw [allows_of_no_decider hp, allows_of_no_decider (decider_rearranged_eq_none h hp)]
    rfl
  | some r =>
    obtain ⟨i, hi, hr, hfirst⟩ := exists_place_of_decider hp
    have haccepts : qs[place i].accepts x = true := by rwa [h.same, hi]
    cases hq : (p.replace qs).decider x with
    | none =>
      rw [decider_eq_none_iff] at hq
      have := hq _ (List.getElem_mem (place i).isLt)
      exact absurd haccepts (by simpa using this)
    | some q =>
      obtain ⟨k, hk, hqx, hfirst'⟩ := exists_place_of_decider hq
      obtain ⟨j, rfl⟩ := place.surjective k
      have hj : p.rules[j] = q := (h.same j).symm.trans hk
      rw [allows_of_decider hp, allows_of_decider hq]
      -- The two could only disagree if they conflicted, and then `place` would keep `i` first.
      refine (Rule.verdict_eq_of_not_conflicts ?_ hr hqx).symm
      intro hconflict
      have hij : i < j := by
        refine lt_of_le_of_ne (hfirst j (by rwa [hj])) ?_
        rintro rfl
        exact hconflict.1 (by rw [← hi, ← hj])
      have hlt := h.keeps i j hij (by rwa [hi, hj])
      exact absurd (hfirst' (place i) haccepts) (not_le.mpr hlt)

/-! ## Fewer rules, and rules in two parts -/

theorem allows_without_covered {p : Policy} {before rest : List Rule} {r : Rule}
    (hrules : p.rules = before ++ r :: rest) (h : r.CoveredBy before) (x : Octets) :
    (p.replace (before ++ rest)).allows x = p.allows x := by
  unfold allows decider replace
  rw [hrules, List.find?_append, List.find?_append, List.find?_cons]
  cases hr : r.accepts x with
  | false => rfl
  | true =>
    obtain ⟨q, hq, hqx⟩ := h x hr
    have : (before.find? (·.accepts x)).isSome = true := List.find?_isSome.mpr ⟨q, hq, hqx⟩
    obtain ⟨d, hd⟩ := Option.isSome_iff_exists.mp this
    rw [hd]
    rfl

theorem allows_append (p : Policy) (xs ys : List Rule) (x : Octets) :
    (p.replace (xs ++ ys)).allows x =
      ((p.replace xs).setDefault ((p.replace ys).allows x)).allows x := by
  unfold allows decider replace setDefault
  rw [List.find?_append]
  cases xs.find? (·.accepts x) <;> rfl

theorem foldl_append (p : Policy) (rs : List Rule) :
    rs.foldl (fun q r => q.append [r]) p = p.append rs := by
  induction rs generalizing p with
  | nil => simp [append]
  | cons r rs ih =>
    rw [List.foldl_cons, ih]
    simp [append]

/-! ## The whole -/

/-- Only the order of conflicting rules has a say in a verdict. -/
theorem precedence_among_conflicts (p : Policy) :
    (∀ qs place, Rearranges p.rules qs place → ∀ x, (p.replace qs).allows x = p.allows x) ∧
      (∀ before r rest, p.rules = before ++ r :: rest → r.CoveredBy before →
        ∀ x, (p.replace (before ++ rest)).allows x = p.allows x) ∧
      (∀ xs ys, p.rules = xs ++ ys → ∀ x,
        p.allows x = ((p.replace xs).setDefault ((p.replace ys).allows x)).allows x) ∧
      ∀ rs x, (rs.foldl (fun q r => q.append [r]) p).allows x = (p.append rs).allows x := by
  refine ⟨?_, ?_, ?_, ?_⟩
  · intro qs place h
    exact allows_rearranged h
  · intro before r rest hrules h
    exact allows_without_covered hrules h
  · intro xs ys hrules x
    rw [← allows_append, ← hrules]
    rfl
  · intro rs x
    rw [foldl_append]

/-- A rule about another address may go to the front, past a rule of the other action, and a host
behind its block may go altogether. -/
theorem precedence_of_block_and_hosts :
    ∃ host block far : Rule,
      host = ⟨.deny, "10.1.2.3", .exact [10, 1, 2, 3]⟩ ∧
      block = ⟨.allow, "10.0.0.0/8", .masked [255, 0, 0, 0] [10, 0, 0, 0]⟩ ∧
      far = ⟨.deny, "192.168.0.1", .exact [192, 168, 0, 1]⟩ ∧
      (Rearranges [host, block, far] [far, host, block] (finRotate 3) ∧
        ∀ x, allows { rules := [far, host, block] } x =
          allows { rules := [host, block, far] } x) ∧
      (host.CoveredBy [block] ∧
        ∀ x, allows { rules := [block, far] } x = allows { rules := [block, host, far] } x) ∧
      (∀ x, allows { rules := [host, block, far] } x =
        allows { rules := [host, block], defaultAllow := allows { rules := [far] } x } x) ∧
      ∀ x, allows ([block, far].foldl (fun q r => append q [r]) { rules := [host] }) x =
        allows { rules := [host, block, far] } x := by
  refine ⟨_, _, _, rfl, rfl, rfl, ?_, ?_, ?_, ?_⟩
  · have h : Rearranges
        [⟨.deny, "10.1.2.3", .exact [10, 1, 2, 3]⟩,
          ⟨.allow, "10.0.0.0/8", .masked [255, 0, 0, 0] [10, 0, 0, 0]⟩,
          ⟨.deny, "192.168.0.1", .exact [192, 168, 0, 1]⟩]
        [⟨.deny, "192.168.0.1", .exact [192, 168, 0, 1]⟩,
          ⟨.deny, "10.1.2.3", .exact [10, 1, 2, 3]⟩,
          ⟨.allow, "10.0.0.0/8", .masked [255, 0, 0, 0] [10, 0, 0, 0]⟩] (finRotate 3) := by
      constructor
      · decide
      · rintro i j hij ⟨haction, x, hi, hj⟩
        fin_cases i <;> fin_cases j <;> try exact absurd hij (by decide)
        · decide
        · exact absurd rfl haction
        · obtain rfl : [192, 168, 0, 1] = x := by simpa [Rule.accepts, Matcher.accepts] using hj
          cases hi
    exact ⟨h, (precedence_among_conflicts { rules := _ }).1 _ _ h⟩
  · have h : (⟨.deny, "10.1.2.3", .exact [10, 1, 2, 3]⟩ : Rule).CoveredBy
        [⟨.allow, "10.0.0.0/8", .masked [255, 0, 0, 0] [10, 0, 0, 0]⟩] := by
      intro x hx
      obtain rfl : [10, 1, 2, 3] = x := by simpa [Rule.accepts, Matcher.accepts] using hx
      exact ⟨_, List.mem_cons_self, rfl⟩
    exact ⟨h, (precedence_among_conflicts { rules := _ }).2.1 [_] _ [_] rfl h⟩
  · exact (precedence_among_conflicts { rules := _ }).2.2.1 [_, _] [_] rfl
  · exact (precedence_among_conflicts { rules := [_] }).2.2.2 [_, _]

end Policy

end PeerAccess
