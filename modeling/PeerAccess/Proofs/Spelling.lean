import PeerAccess.Pattern.Basic
import PeerAccess.Proofs.Positional
import PeerAccess.Proofs.Scan
import PeerAccess.Proofs.Steps

/-!
# What a pattern spells

The texts that spell a pattern, described without the reader: groups joined by a separator, each a
numeral or a star, and for a block a slash and a length. The reader takes exactly these texts, and
what it reads from one is settled by the numbers in it.
-/

namespace PeerAccess

open Text

/-- How the addresses of a family are written down. -/
structure AddressForm where
  separator : Char
  groups : Nat
  base : Nat
  /-- A group has at most so many digits. -/
  digits : Nat
  /-- The highest value of a group, where the number of digits is not bound enough. -/
  top : Option Nat
  /-- Octets of a group. -/
  width : Nat
  /-- A prefix length has at most so many digits. -/
  lengthDigits : Nat
  bits : Nat

def Family.form : Family → AddressForm
  | v4 =>
    { separator := '.', groups := 4, base := 10, digits := 3, top := some 255, width := 1
      lengthDigits := 2, bits := 32 }
  | v6 =>
    { separator := ':', groups := 8, base := 16, digits := 4, top := none, width := 2
      lengthDigits := 3, bits := 128 }

/-- A group that is written out. -/
def SpellsGroup (f : Family) (g : List Char) (n : Nat) : Prop :=
  Numeral f.form.base 1 f.form.digits g n ∧ ∀ top ∈ f.form.top, n ≤ top

/-- A group that may be a star instead, and has no value then. -/
inductive SpellsOpenGroup (f : Family) : List Char → Option Nat → Prop
  | star : SpellsOpenGroup f ['*'] none
  | number {g : List Char} {n : Nat} (h : SpellsGroup f g n) : SpellsOpenGroup f g (some n)

/-- The numbers of a pattern. A group without one was a star; only a block has a length. -/
structure Content where
  family : Family
  groups : List (Option Nat)
  length : Option Nat := none
deriving DecidableEq

inductive Spells : List Char → Content → Prop
  | address (f : Family) {gs : List (List Char)} {vs : List (Option Nat)}
      (count : gs.length = f.form.groups) (groups : List.Forall₂ (SpellsOpenGroup f) gs vs) :
      Spells (join f.form.separator gs) ⟨f, vs, none⟩
  | block (f : Family) {gs : List (List Char)} {ns : List Nat} {len : List Char} {n : Nat}
      (count : gs.length = f.form.groups) (groups : List.Forall₂ (SpellsGroup f) gs ns)
      (length : Numeral 10 1 f.form.lengthDigits len n) (le : n ≤ f.form.bits) :
      Spells (join f.form.separator gs ++ '/' :: len) ⟨f, ns.map some, some n⟩

/-- The pattern that has this content. An address without stars is an exact one. -/
def Pattern.ofContent (c : Content) : Pattern :=
  match c.length with
  | some n => .block c.family (c.groups.map (·.getD 0)) n
  | none =>
    if none ∈ c.groups then .wildcard c.family c.groups
    else .exact c.family (c.groups.map (·.getD 0))

@[simp] theorem Pattern.ofContent_exact (f : Family) (ns : List Nat) :
    ofContent ⟨f, ns.map some, none⟩ = .exact f ns := by
  simp [ofContent]

theorem Pattern.ofContent_wildcard {f : Family} {vs : List (Option Nat)} (h : none ∈ vs) :
    ofContent ⟨f, vs, none⟩ = .wildcard f vs := by
  simp [ofContent, h]

@[simp] theorem Pattern.ofContent_block (f : Family) (ns : List Nat) (n : Nat) :
    ofContent ⟨f, ns.map some, some n⟩ = .block f ns n := by
  simp [ofContent]

/-! ## Groups -/

theorem separator_eq (f : Family) : f.separator = f.form.separator := by cases f <;> rfl

theorem groupCount_eq (f : Family) : f.groupCount = f.form.groups := by cases f <;> rfl

theorem isGroup_iff (f : Family) (g : List Char) (n : Nat) :
    f.isGroup g = true ∧ f.groupValue g = n ↔ Numeral f.form.base 1 f.form.digits g n := by
  cases f with
  | v4 => exact numeral_ten_iff.symm
  | v6 => exact numeral_sixteen_iff.symm

theorem readGroup_eq_ok_iff (f : Family) (g : List Char) (n : Nat) :
    Pattern.readGroup f g = .ok n ↔ f.groupValue g = n ∧ n < f.groupBound := by
  unfold Pattern.readGroup
  split <;> simp <;> grind

theorem lt_groupBound_iff {f : Family} {g : List Char} {n : Nat}
    (h : Numeral f.form.base 1 f.form.digits g n) :
    n < f.groupBound ↔ ∀ top ∈ f.form.top, n ≤ top := by
  cases f with
  | v4 => simp [Family.form, Family.groupBound]; omega
  | v6 =>
    have := h.lt_pow (by decide)
    simp only [Family.form, Family.groupBound] at this ⊢
    simpa using this

theorem lt_groupBound_of_isGroup_v6 {g : List Char} (hg : Family.v6.isGroup g = true) :
    Family.v6.groupValue g < Family.v6.groupBound := by
  have hnumeral := (isGroup_iff .v6 g _).mp ⟨hg, rfl⟩
  exact (lt_groupBound_iff hnumeral).mpr (by simp [Family.form])

theorem readGroup_v6 {g : List Char} (hg : Family.v6.isGroup g = true) :
    Pattern.readGroup .v6 g = .ok (Family.v6.groupValue g) :=
  if_pos (lt_groupBound_of_isGroup_v6 hg)

theorem spellsGroup_iff (f : Family) (g : List Char) (n : Nat) :
    SpellsGroup f g n ↔ f.isGroup g = true ∧ Pattern.readGroup f g = .ok n := by
  rw [readGroup_eq_ok_iff, ← and_assoc, isGroup_iff, SpellsGroup]
  constructor
  · rintro ⟨hg, htop⟩
    exact ⟨hg, (lt_groupBound_iff hg).mpr htop⟩
  · rintro ⟨hg, hlt⟩
    exact ⟨hg, (lt_groupBound_iff hg).mp hlt⟩

theorem spellsOpenGroup_iff (f : Family) (g : List Char) (v : Option Nat) :
    SpellsOpenGroup f g v ↔
      (g == star || f.isGroup g) = true ∧ Pattern.readOpenGroup f g = .ok v := by
  by_cases hg : g = star
  · subst hg
    simp only [Pattern.readOpenGroup, if_true, beq_self_eq_true, Bool.true_or, true_and,
      Except.ok.injEq]
    constructor
    · rintro (_ | ⟨h⟩)
      · rfl
      · exact absurd ((spellsGroup_iff f star _).mp h).1 (by simp [not_isGroup_star])
    · rintro rfl
      exact .star
  · have hbeq : (g == star) = false := by simpa using hg
    simp only [Pattern.readOpenGroup, hg, if_false, hbeq, Bool.false_or]
    constructor
    · rintro (_ | ⟨h⟩)
      · exact absurd rfl hg
      · obtain ⟨hgroup, hread⟩ := (spellsGroup_iff f g _).mp h
        exact ⟨hgroup, by rw [hread]; rfl⟩
    · rintro ⟨hgroup, hread⟩
      cases hn : Pattern.readGroup f g with
      | error e => rw [hn] at hread; cases hread
      | ok n =>
        rw [hn] at hread
        obtain rfl := Except.ok.inj hread
        exact .number ((spellsGroup_iff f g n).mpr ⟨hgroup, hn⟩)

/-! ## Reading -/

theorem spellsGroups_iff {f : Family} {gs : List (List Char)} {ns : List Nat} :
    List.Forall₂ (SpellsGroup f) gs ns ↔
      (∀ g ∈ gs, f.isGroup g = true) ∧ gs.mapM (Pattern.readGroup f) = .ok ns := by
  have h : SpellsGroup f = fun g n => f.isGroup g = true ∧ Pattern.readGroup f g = .ok n := by
    funext g n
    exact propext (spellsGroup_iff f g n)
  rw [h, mapM_eq_ok_iff]
  exact List.forall₂_and_left _ _

theorem spellsOpenGroups_iff {f : Family} {gs : List (List Char)} {vs : List (Option Nat)} :
    List.Forall₂ (SpellsOpenGroup f) gs vs ↔
      (∀ g ∈ gs, (g == star || f.isGroup g) = true) ∧
        gs.mapM (Pattern.readOpenGroup f) = .ok vs := by
  have h : SpellsOpenGroup f = fun g v =>
      (g == star || f.isGroup g) = true ∧ Pattern.readOpenGroup f g = .ok v := by
    funext g v
    exact propext (spellsOpenGroup_iff f g v)
  rw [h, mapM_eq_ok_iff]
  exact List.forall₂_and_left _ _

theorem readLength_eq_ok_iff {f : Family} {len : List Char} {n : Nat} :
    isNumeral isDigit 1 f.lengthDigits len = true ∧ Pattern.readLength f len = .ok n ↔
      Numeral 10 1 f.form.lengthDigits len n ∧ n ≤ f.form.bits := by
  rw [numeral_ten_iff]
  unfold Pattern.readLength
  have hdigits : f.lengthDigits = f.form.lengthDigits := by cases f <;> rfl
  have hbits : f.bits = f.form.bits := by cases f <;> rfl
  rw [hdigits, hbits]
  constructor
  · rintro ⟨hlen, hread⟩
    split at hread
    · rename_i hle
      obtain rfl := Except.ok.inj hread
      exact ⟨⟨hlen, rfl⟩, hle⟩
    · cases hread
  · rintro ⟨⟨hlen, rfl⟩, hle⟩
    exact ⟨hlen, if_pos hle⟩

theorem spellsOpenGroup_some_iff {f : Family} {g : List Char} {n : Nat} :
    SpellsOpenGroup f g (some n) ↔ SpellsGroup f g n := by
  constructor
  · rintro (_ | ⟨h⟩)
    exact h
  · exact .number

theorem spellsOpenGroups_map_some_iff {f : Family} {gs : List (List Char)} {ns : List Nat} :
    List.Forall₂ (SpellsOpenGroup f) gs (ns.map some) ↔ List.Forall₂ (SpellsGroup f) gs ns := by
  rw [List.forall₂_map_right_iff]
  simp only [spellsOpenGroup_some_iff]

theorem star_mem_iff {f : Family} {gs : List (List Char)} {vs : List (Option Nat)}
    (h : List.Forall₂ (SpellsOpenGroup f) gs vs) : star ∈ gs ↔ none ∈ vs := by
  induction h with
  | nil => simp
  | @cons g v gs vs hv _ ih =>
    have hg : star = g ↔ none = v := by
      cases hv with
      | star => simp [star]
      | number hn =>
        have hgroup := ((spellsGroup_iff f g _).mp hn).1
        simp only [reduceCtorEq, iff_false]
        rintro rfl
        rw [not_isGroup_star] at hgroup
        cases hgroup
    rw [List.mem_cons, List.mem_cons, ih, hg]

theorem exists_map_some {vs : List (Option Nat)} (h : none ∉ vs) :
    ∃ ns : List Nat, vs = ns.map some := by
  induction vs with
  | nil => exact ⟨[], rfl⟩
  | cons v vs ih =>
    simp only [List.mem_cons, not_or] at h
    obtain ⟨ns, rfl⟩ := ih h.2
    obtain ⟨n, rfl⟩ := Option.ne_none_iff_exists'.mp (Ne.symm h.1)
    exact ⟨n :: ns, rfl⟩

theorem exists_spells_of_ofWritten {w : Written} {p : Pattern} (hw : w.Canonical)
    (h : Pattern.ofWritten w = .ok p) : ∃ c, Spells w.text c ∧ Pattern.ofContent c = p := by
  obtain ⟨⟨f, shape⟩, gs, len⟩ := w
  have hcount : gs.length = f.form.groups := hw.count.trans (groupCount_eq f)
  cases shape with
  | exact =>
    simp only [Pattern.ofWritten, bind_eq_ok_iff, pure_eq_ok_iff] at h
    obtain ⟨ns, hns, rfl⟩ := h
    have hgroups : List.Forall₂ (SpellsGroup f) gs ns :=
      spellsGroups_iff.mpr ⟨by simpa [Written.Allows] using hw.groups, hns⟩
    refine ⟨⟨f, ns.map some, none⟩, ?_, Pattern.ofContent_exact f ns⟩
    simpa [Written.text, Written.address, separator_eq] using
      Spells.address f hcount (spellsOpenGroups_map_some_iff.mpr hgroups)
  | wildcard =>
    simp only [Pattern.ofWritten, bind_eq_ok_iff, pure_eq_ok_iff] at h
    obtain ⟨vs, hvs, rfl⟩ := h
    have hgroups : List.Forall₂ (SpellsOpenGroup f) gs vs :=
      spellsOpenGroups_iff.mpr ⟨by simpa [Written.Allows, or_comm] using hw.groups, hvs⟩
    have hnone : none ∈ vs := (star_mem_iff hgroups).mp (hw.star_mem rfl)
    refine ⟨⟨f, vs, none⟩, ?_, Pattern.ofContent_wildcard hnone⟩
    simpa [Written.text, Written.address, separator_eq] using Spells.address f hcount hgroups
  | block =>
    simp only [Pattern.ofWritten, bind_eq_ok_iff, pure_eq_ok_iff] at h
    obtain ⟨ns, hns, n, hn, rfl⟩ := h
    have hgroups : List.Forall₂ (SpellsGroup f) gs ns :=
      spellsGroups_iff.mpr ⟨by simpa [Written.Allows] using hw.groups, hns⟩
    obtain ⟨hlen, hle⟩ := readLength_eq_ok_iff.mp ⟨by simpa using hw.length, hn⟩
    refine ⟨⟨f, ns.map some, some n⟩, ?_, Pattern.ofContent_block f ns n⟩
    simpa [Written.text, Written.address, separator_eq] using Spells.block f hcount hgroups hlen hle

theorem exists_written_of_spells {cs : List Char} {c : Content} (h : Spells cs c) :
    ∃ w : Written, w.Canonical ∧ w.text = cs ∧ Pattern.ofWritten w = .ok (Pattern.ofContent c) := by
  cases h with
  | @address f gs vs hcount hgroups =>
    have hcount' : gs.length = f.groupCount := hcount.trans (groupCount_eq f).symm
    by_cases hnone : none ∈ vs
    · obtain ⟨hall, hread⟩ := spellsOpenGroups_iff.mp hgroups
      refine ⟨⟨⟨f, .wildcard⟩, gs, []⟩,
        ⟨⟨hcount', by simpa [Written.Allows, or_comm] using hall, by simp⟩,
          fun _ => (star_mem_iff hgroups).mpr hnone⟩,
        by simp [Written.text, Written.address, separator_eq], ?_⟩
      rw [Pattern.ofContent_wildcard hnone]
      simp [Pattern.ofWritten, hread]
    · obtain ⟨ns, rfl⟩ := exists_map_some hnone
      rw [spellsOpenGroups_map_some_iff, spellsGroups_iff] at hgroups
      obtain ⟨hall, hread⟩ := hgroups
      refine ⟨⟨⟨f, .exact⟩, gs, []⟩,
        ⟨⟨hcount', by simpa [Written.Allows] using hall, by simp⟩, by simp⟩,
        by simp [Written.text, Written.address, separator_eq], ?_⟩
      rw [Pattern.ofContent_exact]
      simp [Pattern.ofWritten, hread]
  | @block f gs ns len n hcount hgroups hlen hle =>
    have hcount' : gs.length = f.groupCount := hcount.trans (groupCount_eq f).symm
    obtain ⟨hall, hread⟩ := spellsGroups_iff.mp hgroups
    obtain ⟨hdigits, hlength⟩ := readLength_eq_ok_iff.mpr ⟨hlen, hle⟩
    refine ⟨⟨⟨f, .block⟩, gs, len⟩,
      ⟨⟨hcount', by simpa [Written.Allows] using hall, by simpa using hdigits⟩, by simp⟩,
      by simp [Written.text, Written.address, separator_eq], ?_⟩
    rw [Pattern.ofContent_block]
    simp [Pattern.ofWritten, hread, hlength]

theorem read_eq_ok_iff {cs : List Char} {p : Pattern} :
    Pattern.read cs = .ok p ↔ ∃ c, Spells cs c ∧ Pattern.ofContent c = p := by
  constructor
  · intro h
    unfold Pattern.read at h
    cases hscan : Written.scan cs with
    | none =>
      rw [hscan] at h
      cases h
    | some w =>
      rw [hscan] at h
      obtain ⟨hw, rfl⟩ := Written.scan_eq_some_iff_canonical.mp hscan
      exact exists_spells_of_ofWritten hw h
  · rintro ⟨c, hc, rfl⟩
    obtain ⟨w, hw, rfl, hread⟩ := exists_written_of_spells hc
    unfold Pattern.read
    rw [Written.scan_eq_some_iff_canonical.mpr ⟨hw, rfl⟩]
    exact hread

theorem parse_eq_ok_iff {s : String} {p : Pattern} :
    Pattern.parse s = .ok p ↔ ∃ c, Spells s.toList c ∧ Pattern.ofContent c = p := by
  unfold Pattern.parse
  rw [mapError_eq_ok_iff, read_eq_ok_iff]

/-! ## What the numbers are held to -/

structure Content.WellFormed (c : Content) : Prop where
  count : c.groups.length = c.family.form.groups
  lt : ∀ n, some n ∈ c.groups → n < 256 ^ c.family.form.width
  length_le : ∀ n ∈ c.length, n ≤ c.family.form.bits

theorem SpellsGroup.lt {f : Family} {g : List Char} {n : Nat} (h : SpellsGroup f g n) :
    n < 256 ^ f.form.width := by
  have hbound : f.groupBound = 256 ^ f.form.width := by cases f <;> rfl
  rw [← hbound]
  exact (lt_groupBound_iff h.1).mpr h.2

theorem lt_of_spellsOpenGroups {f : Family} {gs : List (List Char)} {vs : List (Option Nat)}
    (h : List.Forall₂ (SpellsOpenGroup f) gs vs) : ∀ n, some n ∈ vs → n < 256 ^ f.form.width := by
  intro n hn
  induction h with
  | nil => cases hn
  | cons hv _ ih =>
    rcases List.mem_cons.mp hn with rfl | hn
    · exact (spellsOpenGroup_some_iff.mp hv).lt
    · exact ih hn

theorem Spells.wellFormed {cs : List Char} {c : Content} (h : Spells cs c) : c.WellFormed := by
  cases h with
  | address f hcount hgroups =>
    exact ⟨hgroups.length_eq.symm.trans hcount, lt_of_spellsOpenGroups hgroups, by simp⟩
  | block f hcount hgroups hlen hle =>
    refine ⟨?_, ?_, by simpa using hle⟩
    · rw [List.length_map]
      exact hgroups.length_eq.symm.trans hcount
    · exact lt_of_spellsOpenGroups (spellsOpenGroups_map_some_iff.mpr hgroups)

theorem Spells.slash_mem_iff {cs : List Char} {c : Content} (h : Spells cs c) :
    '/' ∈ cs ↔ ∃ n, c.length = some n := by
  cases h with
  | @address f gs vs hcount hgroups =>
    have hall : ∀ g ∈ gs, Written.Allows ⟨f, .wildcard⟩ g := by
      simpa [Written.Allows, or_comm] using (spellsOpenGroups_iff.mp hgroups).1
    have hslash : '/' ∉ join f.separator gs :=
      Written.not_mem_join hall (by simp) (by cases f <;> simp [Family.separator])
    simpa [← separator_eq] using hslash
  | block f hcount hgroups hlen hle => simp

end PeerAccess
