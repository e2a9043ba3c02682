import PeerAccess.Proofs.Export

/-!
# Putting a declaration in place

A declaration becomes a policy in one go, replaces the policy in use, or is added to an empty one
entry by entry. All of these end with the same policy or with the error of the first entry that
cannot be read; what they leave behind then is different.
-/

namespace PeerAccess

/-- `r` has the action and the text of the entry, and the matcher that the text spells. -/
structure Entry.Becomes (e : Entry) (r : Rule) : Prop where
  action : r.action = e.action
  pattern : r.pattern = e.pattern
  matcher : (Pattern.parse e.pattern).map Pattern.matcher = .ok r.matcher

namespace Declaration

/-- A rule for each entry, in their order, and the declared default. -/
structure Installed (d : Declaration) (p : Policy) : Prop where
  rules : List.Forall₂ Entry.Becomes d.entries p.rules
  defaultAllow : p.defaultAllow = d.defaultAllow

/-- The first `k` entries can be read, and the one after them gives `err`. -/
structure FailsAt (d : Declaration) (k : Nat) (err : PatternError) : Prop where
  readable : ∀ e ∈ d.entries.take k, ∃ p, Pattern.parse e.pattern = .ok p
  bad : ∃ e, d.entries[k]? = some e ∧ Pattern.parse e.pattern = .error err

def first (d : Declaration) (k : Nat) : Declaration := { d with entries := d.entries.take k }

end Declaration

/-- The policy that is left, and the error if there was one. -/
def Outcome.Leaves (o : Outcome) (p : Policy) (err : Option PatternError) : Prop :=
  o.policy = p ∧ o.error = err

/-! ## Single entries -/

namespace Entry

theorem compile_eq_ok_iff {e : Entry} {r : Rule} : e.compile = .ok r ↔ e.Becomes r := by
  unfold compile
  rw [Rule.compile_eq_ok_iff]
  constructor
  · rintro ⟨hmatcher, haction, hpattern⟩
    exact ⟨haction, hpattern, hmatcher⟩
  · rintro ⟨haction, hpattern, hmatcher⟩
    exact ⟨hmatcher, haction, hpattern⟩

theorem compile_eq_error_iff {e : Entry} {err : PatternError} :
    e.compile = .error err ↔ Pattern.parse e.pattern = .error err := by
  unfold compile Rule.compile
  cases Pattern.parse e.pattern <;> simp [Except.map]

theorem Becomes.readable {e : Entry} {r : Rule} (h : e.Becomes r) :
    ∃ p, Pattern.parse e.pattern = .ok p := by
  obtain ⟨p, hp, _⟩ := map_eq_ok_iff.mp h.matcher
  exact ⟨p, hp⟩

/-- Either every entry becomes a rule, or there is a first one that does not. -/
theorem all_become_or_first_bad (es : List Entry) :
    (∃ rs, List.Forall₂ Becomes es rs) ∨
      ∃ good e rest err rs, es = good ++ e :: rest ∧ List.Forall₂ Becomes good rs ∧
        e.compile = .error err := by
  induction es with
  | nil => exact .inl ⟨[], .nil⟩
  | cons e es ih =>
    cases he : e.compile with
    | error err => exact .inr ⟨[], e, es, err, [], rfl, .nil, he⟩
    | ok r =>
      have hr : e.Becomes r := compile_eq_ok_iff.mp he
      rcases ih with ⟨rs, hrs⟩ | ⟨good, bad, rest, err, rs, rfl, hrs, hbad⟩
      · exact .inl ⟨r :: rs, .cons hr hrs⟩
      · exact .inr ⟨e :: good, bad, rest, err, r :: rs, rfl, .cons hr hrs, hbad⟩

end Entry

namespace Declaration

theorem readable_of_become {es : List Entry} {rs : List Rule}
    (h : List.Forall₂ Entry.Becomes es rs) :
    ∀ e ∈ es, ∃ p, Pattern.parse e.pattern = .ok p := by
  intro e he
  obtain ⟨r, _, hr⟩ := exists_partner h he
  exact hr.readable

theorem compile_of_become {d : Declaration} {rs : List Rule}
    (h : List.Forall₂ Entry.Becomes d.entries rs) : d.compile = .ok rs := by
  unfold compile
  rw [mapM_eq_ok_iff]
  exact h.imp fun _ _ he => Entry.compile_eq_ok_iff.mpr he

theorem compile_of_first_bad {d : Declaration} {good rest : List Entry} {e : Entry}
    {rs : List Rule} {err : PatternError} (hentries : d.entries = good ++ e :: rest)
    (hgood : List.Forall₂ Entry.Becomes good rs) (he : e.compile = .error err) :
    d.compile = .error err := by
  have hmapM : good.mapM Entry.compile = .ok rs :=
    compile_of_become (d := { entries := good }) hgood
  unfold compile
  rw [hentries, List.mapM_append, hmapM, List.mapM_cons, he]
  rfl

theorem takeWhile_of_become {es : List Entry} {rs : List Rule}
    (h : List.Forall₂ Entry.Becomes es rs) (rest : List Entry) :
    (es ++ rest).takeWhile (fun e => e.compile.isOk) =
      es ++ rest.takeWhile fun e => e.compile.isOk := by
  apply List.takeWhile_append_of_pos
  intro e he
  obtain ⟨r, _, hr⟩ := exists_partner h he
  rw [Entry.compile_eq_ok_iff.mpr hr]
  rfl

theorem warnings_of_become {d : Declaration} {rs : List Rule}
    (h : List.Forall₂ Entry.Becomes d.entries rs) :
    d.warnings = d.entries.flatMap Entry.warnings := by
  unfold warnings
  have htake := takeWhile_of_become h []
  rw [List.append_nil, List.takeWhile_nil, List.append_nil] at htake
  rw [htake]

theorem warnings_of_first_bad {d : Declaration} {good rest : List Entry} {e : Entry}
    {rs : List Rule} {err : PatternError} (hentries : d.entries = good ++ e :: rest)
    (hgood : List.Forall₂ Entry.Becomes good rs) (he : e.compile = .error err) :
    d.warnings = good.flatMap Entry.warnings := by
  unfold warnings
  have hbad : ¬ e.compile.isOk = true := by
    rw [he]
    exact Bool.false_ne_true
  rw [hentries, takeWhile_of_become hgood,
    List.takeWhile_cons_of_neg (p := fun e : Entry => e.compile.isOk) hbad, List.append_nil]

theorem failsAt_of_first_bad {d : Declaration} {good rest : List Entry} {e : Entry}
    {rs : List Rule} {err : PatternError} (hentries : d.entries = good ++ e :: rest)
    (hgood : List.Forall₂ Entry.Becomes good rs) (he : e.compile = .error err) :
    d.FailsAt good.length err := by
  constructor
  · rw [hentries, List.take_left]
    exact readable_of_become hgood
  · exact ⟨e, by simp [hentries], Entry.compile_eq_error_iff.mp he⟩

end Declaration

/-! ## Entry by entry -/

namespace Policy

theorem add_of_becomes {e : Entry} {r : Rule} (h : e.Becomes r) (p : Policy) :
    (p.add e).Leaves (p.append [r]) none := by
  unfold add
  rw [Entry.compile_eq_ok_iff.mpr h]
  exact ⟨rfl, rfl⟩

theorem add_of_error {e : Entry} {err : PatternError} (h : e.compile = .error err) (p : Policy) :
    (p.add e).Leaves p (some err) := by
  unfold add
  rw [h]
  exact ⟨rfl, rfl⟩

theorem after_adds {es : List Entry} {rs : List Rule} (h : List.Forall₂ Entry.Becomes es rs)
    (p : Policy) : p.after (es.map .add) = p.append rs := by
  unfold after
  induction h generalizing p with
  | nil => simp [append]
  | cons he _ ih =>
    rw [List.map_cons, List.foldl_cons, ih, change, (add_of_becomes he p).1]
    simp [append]

theorem addChain_cons {e : Entry} {r : Rule} (h : e.Becomes r) (p : Policy) (es : List Entry) :
    (p.addChain (e :: es)).Leaves ((p.append [r]).addChain es).policy
      ((p.append [r]).addChain es).error := by
  obtain ⟨hpolicy, herror⟩ := add_of_becomes h p
  rw [addChain_of_no_error herror, hpolicy]
  exact ⟨rfl, rfl⟩

theorem addChain_append {es : List Entry} {rs : List Rule} (h : List.Forall₂ Entry.Becomes es rs)
    (p : Policy) (rest : List Entry) :
    (p.addChain (es ++ rest)).Leaves ((p.append rs).addChain rest).policy
      ((p.append rs).addChain rest).error := by
  induction h generalizing p with
  | nil => simp [append, Outcome.Leaves]
  | @cons e r es rs he _ ih =>
    obtain ⟨hpolicy, herror⟩ := addChain_cons he p (es ++ rest)
    obtain ⟨hpolicy', herror'⟩ := ih (p.append [r])
    have happend : (p.append [r]).append rs = p.append (r :: rs) := by simp [append]
    rw [happend] at hpolicy' herror'
    exact ⟨hpolicy.trans hpolicy', herror.trans herror'⟩

theorem addChain_of_become {es : List Entry} {rs : List Rule}
    (h : List.Forall₂ Entry.Becomes es rs) (p : Policy) :
    (p.addChain es).Leaves (p.append rs) none := by
  have := addChain_append h p []
  rwa [List.append_nil] at this

theorem addChain_of_first_bad {good rest : List Entry} {e : Entry} {rs : List Rule}
    {err : PatternError} (hgood : List.Forall₂ Entry.Becomes good rs)
    (he : e.compile = .error err) (p : Policy) :
    (p.addChain (good ++ e :: rest)).Leaves (p.append rs) (some err) := by
  have hbad : ((p.append rs).addChain (e :: rest)).Leaves (p.append rs) (some err) := by
    obtain ⟨hpolicy, herror⟩ := add_of_error he (p.append rs)
    rw [addChain_of_error herror]
    exact ⟨hpolicy, herror⟩
  have hchain := addChain_append hgood p (e :: rest)
  rwa [hbad.1, hbad.2] at hchain

/-! ## All ways -/

/-- A declaration whose entries can all be read is in place afterwards, in whatever way it was put
there and whatever was there before. Otherwise every way reports its first bad entry. -/
theorem installs_agree (d : Declaration) :
    (∃ q, d.Installed q ∧ ofDeclaration d = .ok q ∧
        (∀ p : Policy, (p.apply d).Leaves q none) ∧
        (addChain { defaultAllow := d.defaultAllow } d.entries).Leaves q none ∧
        ∀ p : Policy,
          p.after (.clear :: .setDefault d.defaultAllow :: d.entries.map .add) = q) ∨
      ∃ k err, d.FailsAt k err ∧ ofDeclaration d = .error err ∧
        (∀ p : Policy, (p.apply d).Leaves p (some err)) ∧
        ∃ q, (d.first k).Installed q ∧
          (addChain { defaultAllow := d.defaultAllow } d.entries).Leaves q (some err) := by
  rcases Entry.all_become_or_first_bad d.entries with
    ⟨rs, hrs⟩ | ⟨good, e, rest, err, rs, hentries, hgood, he⟩
  · have hcompile := Declaration.compile_of_become hrs
    refine .inl ⟨{ rules := rs, defaultAllow := d.defaultAllow }, ⟨hrs, rfl⟩, ?_, ?_, ?_, ?_⟩
    · unfold ofDeclaration
      rw [hcompile]
      rfl
    · intro p
      unfold apply
      rw [hcompile]
      exact ⟨rfl, rfl⟩
    · exact addChain_of_become hrs _
    · intro p
      exact after_adds hrs { defaultAllow := d.defaultAllow }
  · have hcompile := Declaration.compile_of_first_bad hentries hgood he
    refine .inr ⟨good.length, err, Declaration.failsAt_of_first_bad hentries hgood he, ?_, ?_,
      { rules := rs, defaultAllow := d.defaultAllow }, ⟨?_, rfl⟩, ?_⟩
    · unfold ofDeclaration
      rw [hcompile]
      rfl
    · intro p
      unfold apply
      rw [hcompile]
      exact ⟨rfl, rfl⟩
    · unfold Declaration.first
      rw [hentries, List.take_left]
      exact hgood
    · rw [hentries]
      exact addChain_of_first_bad hgood he _

end Policy

end PeerAccess
