import PeerAccess.Proofs.Scan
import Mathlib.Data.Set.Insert

/-!
# Kinds that share a text

A written address also passes as a wildcard address that happens to have no star. Nothing else is
shared: the separators tell the families apart, and the slash tells blocks. So the kinds may be
tried in any order in which written addresses come before wildcards of their family.
-/

namespace PeerAccess

open Text

namespace Kind

/-- The kinds that a text passes as. -/
def accepting (cs : List Char) : Set Kind := {k | k.accepts cs = true}

/-- An order of all kinds in which written addresses are tried before wildcards. -/
structure Order (ks : List Kind) : Prop where
  perm : ks.Perm all
  exact_first : ∀ f : Family, ks.idxOf ⟨f, .exact⟩ < ks.idxOf ⟨f, .wildcard⟩

theorem order_all : Order all :=
  ⟨List.Perm.refl _, fun f => by cases f <;> decide⟩

theorem accepts_iff {k : Kind} {cs : List Char} :
    k.accepts cs = true ↔ ∃ w : Written, w.kind = k ∧ w.WellFormed ∧ w.text = cs := by
  unfold accepts
  simp only [Option.isSome_iff_exists, Written.scan_eq_some_iff]

end Kind

/-! ## Stars -/

namespace Written

theorem WellFormed.star_mem_text_iff {w : Written} (h : w.WellFormed) :
    '*' ∈ w.text ↔ star ∈ w.groups := by
  constructor
  · intro hmem
    rcases h.mem_text_cases hmem with haddress | hslash | hdigit
    · rcases mem_join haddress with hsep | ⟨g, hg, hstar⟩
      · exact absurd hsep (by cases w.kind.family <;> decide)
      · rcases h.groups g hg with hgroup | ⟨_, rfl⟩
        · exact absurd (isHexDigit_of_mem_isGroup hgroup _ hstar) (by decide)
        · exact hg
    · exact absurd hslash (by decide)
    · exact absurd hdigit (by decide)
  · intro hstar
    exact List.mem_append_left _ (mem_join_of_mem hstar (List.mem_singleton.mpr rfl))

theorem WellFormed.wildcard_of_exact {w : Written} (h : w.WellFormed)
    (hexact : w.kind.shape = .exact) :
    WellFormed { w with kind := ⟨w.kind.family, .wildcard⟩ } := by
  refine ⟨h.count, fun g hg => ?_, by simpa [hexact] using h.length⟩
  rcases h.groups g hg with hgroup | ⟨hwild, _⟩
  · exact .inl hgroup
  · rw [hexact] at hwild
    cases hwild

end Written

namespace Kind

/-- Written addresses are the wildcards that have no star. -/
theorem accepts_exact_iff {f : Family} {cs : List Char} :
    (mk f .exact).accepts cs = true ↔ (mk f .wildcard).accepts cs = true ∧ '*' ∉ cs := by
  constructor
  · intro h
    obtain ⟨w, hkind, hw, rfl⟩ := accepts_iff.mp h
    have hshape : w.kind.shape = .exact := by rw [hkind]
    have hstar : star ∉ w.groups := hw.star_not_mem (by simp [hshape])
    refine ⟨accepts_iff.mpr ⟨_, ?_, hw.wildcard_of_exact hshape, ?_⟩, ?_⟩
    · rw [hkind]
    · simp [Written.text, Written.address, hshape]
    · rwa [hw.star_mem_text_iff]
  · rintro ⟨h, hstar⟩
    obtain ⟨w, hkind, hw, rfl⟩ := accepts_iff.mp h
    rw [hw.star_mem_text_iff] at hstar
    have hscan := hw.exact_scan (by rw [hkind]) hstar
    rw [hkind] at hscan
    unfold accepts
    rw [hscan]
    rfl

/-! ## Two kinds for one text -/

section
variable {k k' : Kind} {cs : List Char} (h : k.accepts cs = true) (h' : k'.accepts cs = true)
include h h'

theorem family_eq_of_accepts : k.family = k'.family := by
  obtain ⟨w, rfl, hw, rfl⟩ := accepts_iff.mp h
  obtain ⟨w', rfl, hw', htext⟩ := accepts_iff.mp h'
  rw [eq_comm, ← hw'.separator_mem_iff, htext, hw.separator_mem_iff]

theorem block_iff_of_accepts : k.shape = .block ↔ k'.shape = .block := by
  obtain ⟨w, rfl, hw, rfl⟩ := accepts_iff.mp h
  obtain ⟨w', rfl, hw', htext⟩ := accepts_iff.mp h'
  exact (hw.parts_eq hw' htext.symm).1

end

/-- The kind that a text should be read as. A star is the only reason for a wildcard. -/
def Suits (cs : List Char) (k : Kind) : Prop :=
  k.accepts cs = true ∧ (k.shape = .wildcard → '*' ∈ cs)

theorem not_suits_both {f : Family} {cs : List Char} (h : Suits cs ⟨f, .exact⟩) :
    ¬ Suits cs ⟨f, .wildcard⟩ := fun h' => (accepts_exact_iff.mp h.1).2 (h'.2 rfl)

theorem Suits.unique {cs : List Char} {k k' : Kind} (h : Suits cs k) (h' : Suits cs k') :
    k = k' := by
  have hfamily := family_eq_of_accepts h.1 h'.1
  have hblock := block_iff_of_accepts h.1 h'.1
  obtain ⟨f, shape⟩ := k
  obtain ⟨f', shape'⟩ := k'
  obtain rfl : f = f' := hfamily
  cases shape with
  | exact =>
    cases shape' with
    | exact => rfl
    | wildcard => exact absurd h' (not_suits_both h)
    | block => cases hblock.mpr rfl
  | wildcard =>
    cases shape' with
    | exact => exact absurd h (not_suits_both h')
    | wildcard => rfl
    | block => cases hblock.mpr rfl
  | block =>
    obtain rfl : shape' = .block := hblock.mp rfl
    rfl

/-! ## The order of trying -/

theorem Order.nodup {ks : List Kind} (h : Order ks) : ks.Nodup :=
  h.perm.nodup_iff.mpr (by decide)

theorem Order.suits_of_find? {ks : List Kind} (h : Order ks) {cs : List Char} {k : Kind}
    (hk : ks.find? (·.accepts cs) = some k) : Suits cs k := by
  obtain ⟨haccepts, i, hi, hik, hbefore⟩ := List.find?_eq_some_iff_getElem.mp hk
  refine ⟨haccepts, fun hwild => ?_⟩
  obtain ⟨f, shape⟩ := k
  obtain rfl : shape = .wildcard := hwild
  -- The exact kind had its turn before and turned the text down, so there is a star.
  have hplace : ks.idxOf ⟨f, .wildcard⟩ = i := hik ▸ h.nodup.idxOf_getElem i hi
  have hlt : ks.idxOf ⟨f, .exact⟩ < i := hplace ▸ h.exact_first f
  have hexact := hbefore _ hlt
  rw [List.getElem_idxOf, Bool.not_eq_true', ← Bool.not_eq_true, accepts_exact_iff] at hexact
  by_contra hstar
  exact hexact ⟨haccepts, hstar⟩

theorem Order.find?_eq_some_iff {ks : List Kind} (h : Order ks) {cs : List Char} {k : Kind} :
    ks.find? (·.accepts cs) = some k ↔ Suits cs k := by
  constructor
  · exact h.suits_of_find?
  · intro hk
    cases hfound : ks.find? (·.accepts cs) with
    | none =>
      have hmem : k ∈ ks := h.perm.mem_iff.mpr (mem_all k)
      exact absurd hk.1 (List.find?_eq_none.mp hfound k hmem)
    | some k' => rw [hk.unique (h.suits_of_find? hfound)]

theorem classify_eq_some_iff {cs : List Char} {k : Kind} :
    classify cs = some k ↔ Suits cs k := order_all.find?_eq_some_iff

theorem Order.find?_eq_classify {ks : List Kind} (h : Order ks) (cs : List Char) :
    ks.find? (·.accepts cs) = classify cs := by
  ext k
  rw [h.find?_eq_some_iff, classify_eq_some_iff]

/-! ## All kinds for one text -/

section
variable {f : Family} {cs : List Char}

theorem accepting_of_suits_exact (h : Suits cs ⟨f, .exact⟩) :
    accepting cs = {⟨f, .exact⟩, ⟨f, .wildcard⟩} := by
  ext ⟨f', shape⟩
  constructor
  · intro hk
    obtain rfl : f' = f := family_eq_of_accepts hk h.1
    have hblock := block_iff_of_accepts hk h.1
    cases shape with
    | exact => exact .inl rfl
    | wildcard => exact .inr rfl
    | block => cases hblock.mp rfl
  · rintro (hk | hk)
    · rw [hk]
      exact h.1
    · rw [Set.mem_singleton_iff.mp hk]
      exact (accepts_exact_iff.mp h.1).1

theorem accepting_of_suits_wildcard (h : Suits cs ⟨f, .wildcard⟩) :
    accepting cs = {⟨f, .wildcard⟩} := by
  ext ⟨f', shape⟩
  constructor
  · intro hk
    obtain rfl : f' = f := family_eq_of_accepts hk h.1
    have hblock := block_iff_of_accepts hk h.1
    cases shape with
    | exact => exact absurd (h.2 rfl) (accepts_exact_iff.mp hk).2
    | wildcard => rfl
    | block => cases hblock.mp rfl
  · intro hk
    rw [Set.mem_singleton_iff.mp hk]
    exact h.1

theorem accepting_of_suits_block (h : Suits cs ⟨f, .block⟩) : accepting cs = {⟨f, .block⟩} := by
  ext ⟨f', shape⟩
  constructor
  · intro hk
    obtain rfl : f' = f := family_eq_of_accepts hk h.1
    obtain rfl : shape = .block := (block_iff_of_accepts hk h.1).mpr rfl
    rfl
  · intro hk
    rw [Set.mem_singleton_iff.mp hk]
    exact h.1

end

theorem accepting_cases (cs : List Char) :
    accepting cs = ∅ ∨ ∃ f : Family, accepting cs = {⟨f, .exact⟩, ⟨f, .wildcard⟩} ∨
      accepting cs = {⟨f, .wildcard⟩} ∨ accepting cs = {⟨f, .block⟩} := by
  cases hchosen : classify cs with
  | none =>
    refine .inl (Set.eq_empty_iff_forall_notMem.mpr fun k hk => ?_)
    exact List.find?_eq_none.mp hchosen k (mem_all k) hk
  | some k =>
    obtain ⟨f, shape⟩ := k
    have hk := classify_eq_some_iff.mp hchosen
    refine .inr ⟨f, ?_⟩
    cases shape with
    | exact => exact .inl (accepting_of_suits_exact hk)
    | wildcard => exact .inr (.inl (accepting_of_suits_wildcard hk))
    | block => exact .inr (.inr (accepting_of_suits_block hk))

/-- A text passes as no kind or as one, but that a written address is also a wildcard. So any order
with addresses before wildcards gives every text the same kind, and what passes as a wildcard is one
when it has a star. -/
theorem overlap_of_kinds (s : String) :
    (accepting s.toList = ∅ ∨
      ∃ f : Family, accepting s.toList = {⟨f, .exact⟩, ⟨f, .wildcard⟩} ∨
        accepting s.toList = {⟨f, .wildcard⟩} ∨ accepting s.toList = {⟨f, .block⟩}) ∧
      (∀ k ∈ accepting s.toList, ∀ k' ∈ accepting s.toList,
        k.family = k'.family ∧ (k.shape = .block ↔ k'.shape = .block)) ∧
      (∀ ks, Order ks → ks.find? (·.accepts s.toList) = classify s.toList) ∧
      ∀ f : Family, ⟨f, .wildcard⟩ ∈ accepting s.toList →
        (classify s.toList ≠ some ⟨f, .wildcard⟩ ↔ '*' ∉ s.toList) := by
  refine ⟨accepting_cases _, fun k hk k' hk' => ?_, fun ks hks => hks.find?_eq_classify _, ?_⟩
  · exact ⟨family_eq_of_accepts hk hk', block_iff_of_accepts hk hk'⟩
  · intro f hf
    rw [ne_eq, classify_eq_some_iff, not_iff_not]
    exact ⟨fun hsuits => hsuits.2 rfl, fun hstar => ⟨hf, fun _ => hstar⟩⟩

/-- Of this order it is enough that each address stands before the wildcard of its family. -/
theorem overlap_of_kinds_in_another_order :
    ∃ ks : List Kind,
      ks = [⟨.v6, .block⟩, ⟨.v6, .exact⟩, ⟨.v4, .exact⟩, ⟨.v4, .block⟩, ⟨.v6, .wildcard⟩,
        ⟨.v4, .wildcard⟩] ∧
      Order ks ∧ ks.find? (·.accepts "10.0.0.1".toList) = some ⟨.v4, .exact⟩ ∧
      (∀ k ∈ accepting "10.0.0.1".toList, k.family = .v4 ∧ k.shape ≠ .block) ∧
      ⟨.v4, .wildcard⟩ ∈ accepting "10.0.0.1".toList ∧ '*' ∉ "10.0.0.1".toList ∧
      ⟨.v4, .wildcard⟩ ∈ accepting "10.0.*.1".toList ∧
      classify "10.0.*.1".toList = some ⟨.v4, .wildcard⟩ := by
  have hwild : ⟨.v4, .wildcard⟩ ∈ accepting "10.0.0.1".toList := rfl
  have hwild' : ⟨.v4, .wildcard⟩ ∈ accepting "10.0.*.1".toList := rfl
  obtain ⟨_, hpair, horder, hstar⟩ := overlap_of_kinds "10.0.0.1"
  obtain ⟨_, _, _, hstar'⟩ := overlap_of_kinds "10.0.*.1"
  have hks : Order [⟨.v6, .block⟩, ⟨.v6, .exact⟩, ⟨.v4, .exact⟩, ⟨.v4, .block⟩, ⟨.v6, .wildcard⟩,
      ⟨.v4, .wildcard⟩] := ⟨by decide, fun f => by cases f <;> decide⟩
  refine ⟨_, rfl, hks, (horder _ hks).trans rfl, fun k hk => ?_, hwild,
    (hstar _ hwild).mp (by decide), hwild', ?_⟩
  · obtain ⟨hfamily, hblock⟩ := hpair k hk _ hwild
    exact ⟨hfamily, hblock.not.mpr (by decide)⟩
  · by_contra hne
    exact (hstar' _ hwild').mp hne (by decide)

end Kind

end PeerAccess
