import PeerAccess.Pattern.Grammar
import Mathlib.Tactic.ByContra

/-!
# Texts taken apart

`Written.text` puts the parts of a text together again, and scanning is its inverse. The order in
which kinds are tried decides only whether a text without stars is a wildcard, and it is not.
-/

namespace PeerAccess

open Text

theorem Kind.mem_all (k : Kind) : k ∈ all := by
  rcases k with ⟨_ | _, _ | _ | _⟩ <;> decide

theorem isHexDigit_of_isDigit {c : Char} (h : isDigit c = true) : isHexDigit c = true := by
  rw [isDigit] at h
  simp [isHexDigit, h]

theorem not_isGroup_star (f : Family) : f.isGroup star = false := by cases f <;> rfl

namespace Written

def address (w : Written) : List Char := join w.kind.family.separator w.groups

def text (w : Written) : List Char :=
  w.address ++ if w.kind.shape = .block then '/' :: w.length else []

/-- A group that this kind of pattern may have. -/
def Allows (k : Kind) (g : List Char) : Prop :=
  k.family.isGroup g = true ∨ k.shape = .wildcard ∧ g = star

structure WellFormed (w : Written) : Prop where
  count : w.groups.length = w.kind.family.groupCount
  groups : ∀ g ∈ w.groups, Allows w.kind g
  length : if w.kind.shape = .block then
      isNumeral isDigit 1 w.kind.family.lengthDigits w.length = true
    else w.length = []

/-- The parts that the first fitting kind finds: a star is the only reason to be a wildcard. -/
structure Canonical (w : Written) : Prop extends WellFormed w where
  star_mem : w.kind.shape = .wildcard → star ∈ w.groups

theorem isHexDigit_of_mem_isGroup {f : Family} {g : List Char} (h : f.isGroup g = true) :
    ∀ c ∈ g, isHexDigit c = true := by
  intro c hc
  cases f with
  | v4 =>
    simp only [Family.isGroup, isNumeral, Bool.and_eq_true, List.all_eq_true] at h
    exact isHexDigit_of_isDigit (h.2 c hc)
  | v6 =>
    simp only [Family.isGroup, isNumeral, Bool.and_eq_true, List.all_eq_true] at h
    exact h.2 c hc

theorem not_mem_of_allows {k : Kind} {g : List Char} {sep : Char} (h : Allows k g)
    (hsep : sep = '.' ∨ sep = ':' ∨ sep = '/') : sep ∉ g := by
  intro hmem
  rcases h with hgroup | ⟨_, rfl⟩
  · have := isHexDigit_of_mem_isGroup hgroup sep hmem
    rcases hsep with rfl | rfl | rfl <;> exact absurd this (by decide)
  · rcases hsep with rfl | rfl | rfl <;> exact absurd hmem (by decide)

theorem separator_cases (f : Family) :
    f.separator = '.' ∨ f.separator = ':' ∨ f.separator = '/' := by
  cases f <;> simp [Family.separator]

theorem groupCount_ne_zero (f : Family) : f.groupCount ≠ 0 := by cases f <;> decide

theorem splitOn_join {k : Kind} {gs : List (List Char)} (hcount : gs.length = k.family.groupCount)
    (hgroups : ∀ g ∈ gs, Allows k g) :
    (join k.family.separator gs).splitOn k.family.separator = gs := by
  apply List.splitOn_intercalate
  · intro g hg
    exact not_mem_of_allows (hgroups g hg) (separator_cases _)
  · rintro rfl
    exact groupCount_ne_zero _ hcount.symm

/-- What the grammar takes as groups is what it finds between separators. -/
theorem groupsWhere_eq_some_iff {k : Kind} {ok : List Char → Bool} {cs : List Char}
    {gs : List (List Char)} (hok : ∀ g, ok g = true ↔ Allows k g) :
    groupsWhere k.family ok cs = some gs ↔
      gs.length = k.family.groupCount ∧ (∀ g ∈ gs, Allows k g) ∧
        join k.family.separator gs = cs := by
  have hall : ∀ gs : List (List Char), gs.all ok = true ↔ ∀ g ∈ gs, Allows k g := by
    simp [List.all_eq_true, hok]
  rw [groupsWhere]
  constructor
  · intro h
    split at h
    · rename_i hfits
      obtain rfl := Option.some.inj h
      exact ⟨hfits.1, (hall _).mp hfits.2, List.intercalate_splitOn _⟩
    · cases h
  · rintro ⟨hcount, hgroups, rfl⟩
    simp only [splitOn_join hcount hgroups]
    rw [if_pos ⟨hcount, (hall gs).mpr hgroups⟩]

theorem mem_join {sep c : Char} {gs : List (List Char)} (h : c ∈ join sep gs) :
    c = sep ∨ ∃ g ∈ gs, c ∈ g := by
  induction gs with
  | nil => simp [join] at h
  | cons g gs ih =>
    cases gs with
    | nil => simpa [join] using Or.inr h
    | cons g' gs =>
      rw [join, List.intercalate_cons_cons] at h
      simp only [List.mem_append, List.mem_singleton] at h
      rcases h with (h | h) | h
      · exact .inr ⟨g, by simp, h⟩
      · exact .inl h
      · rcases ih h with h | ⟨g', hg, h⟩
        · exact .inl h
        · exact .inr ⟨g', List.mem_cons_of_mem _ hg, h⟩

theorem mem_join_of_mem {sep c : Char} {g : List Char} {gs : List (List Char)} (hg : g ∈ gs)
    (hc : c ∈ g) : c ∈ join sep gs := by
  induction gs with
  | nil => cases hg
  | cons g' gs ih =>
    cases gs with
    | nil =>
      obtain rfl := List.mem_singleton.mp hg
      simpa [join] using hc
    | cons g'' gs =>
      rw [join, List.intercalate_cons_cons, List.mem_append, List.mem_append]
      rcases List.mem_cons.mp hg with rfl | hg
      · exact .inl (.inl hc)
      · exact .inr (ih hg)

theorem not_mem_join {k : Kind} {gs : List (List Char)} {sep : Char}
    (hgroups : ∀ g ∈ gs, Allows k g) (hsep : sep = '.' ∨ sep = ':' ∨ sep = '/')
    (hne : sep ≠ k.family.separator) : sep ∉ join k.family.separator gs := by
  intro hmem
  rcases mem_join hmem with h | ⟨g, hg, h⟩
  · exact hne h
  · exact not_mem_of_allows (hgroups g hg) hsep h

/-! ## Scanning -/

theorem map_groupsWhere_eq_some_iff {k : Kind} {ok : List Char → Bool} {cs : List Char}
    {w : Written} (hshape : k.shape ≠ .block) (hok : ∀ g, ok g = true ↔ Allows k g) :
    ((groupsWhere k.family ok cs).map fun gs => ({ kind := k, groups := gs } : Written)) = some w ↔
      w.kind = k ∧ w.WellFormed ∧ w.text = cs := by
  rw [Option.map_eq_some_iff]
  simp only [groupsWhere_eq_some_iff hok]
  constructor
  · rintro ⟨gs, ⟨hcount, hgroups, hjoin⟩, rfl⟩
    exact ⟨rfl, ⟨hcount, hgroups, by simp [hshape]⟩, by simpa [text, address, hshape] using hjoin⟩
  · rintro ⟨rfl, hw, htext⟩
    have hlength := hw.length
    rw [if_neg hshape] at hlength
    refine ⟨w.groups, ⟨hw.count, hw.groups, by simpa [text, address, hshape] using htext⟩, ?_⟩
    rw [← hlength]

theorem scan_eq_some_iff {k : Kind} {cs : List Char} {w : Written} :
    k.scan cs = some w ↔ w.kind = k ∧ w.WellFormed ∧ w.text = cs := by
  obtain ⟨f, shape⟩ := k
  cases shape with
  | exact =>
    apply map_groupsWhere_eq_some_iff (k := ⟨f, .exact⟩) (by simp)
    simp [Allows]
  | wildcard =>
    apply map_groupsWhere_eq_some_iff (k := ⟨f, .wildcard⟩) (by simp)
    simp [Allows, or_comm]
  | block =>
    have hok : ∀ g, f.isGroup g = true ↔ Allows ⟨f, .block⟩ g := by simp [Allows]
    simp only [Kind.scan, Option.bind_eq_bind, Option.bind_eq_some_iff, Prod.exists,
      cut_eq_some_iff, groupsWhere_eq_some_iff (k := ⟨f, .block⟩) hok]
    constructor
    · rintro ⟨a, len, ⟨rfl, -⟩, gs, ⟨hcount, hgroups, rfl⟩, h⟩
      split at h
      · rename_i hlen
        obtain rfl := Option.some.inj h
        exact ⟨rfl, ⟨hcount, hgroups, by simpa using hlen⟩, by simp [text, address]⟩
      · cases h
    · rintro ⟨hkind, hw, rfl⟩
      obtain ⟨k, gs, len⟩ := w
      obtain rfl : k = ⟨f, .block⟩ := hkind
      have hslash : '/' ∉ join f.separator gs :=
        not_mem_join hw.groups (by simp) (by cases f <;> simp [Family.separator])
      exact ⟨_, len, ⟨by simp [text, address], hslash⟩, gs, ⟨hw.count, hw.groups, rfl⟩,
        if_pos (by simpa using hw.length)⟩

/-! Two readings of one text agree: the family shows in the separators, a block in its slash, and
a wildcard in its star. -/

theorem separator_mem_join {k : Kind} {gs : List (List Char)}
    (hcount : gs.length = k.family.groupCount) :
    k.family.separator ∈ join k.family.separator gs := by
  have htwo : 2 ≤ gs.length := by
    rw [hcount]
    cases k.family <;> decide
  match gs, htwo with
  | g :: g' :: gs, _ => simp [join, List.intercalate_cons_cons]

theorem WellFormed.slash_not_mem {w : Written} (h : w.WellFormed) : '/' ∉ w.address :=
  not_mem_join h.groups (by simp) (by cases w.kind.family <;> simp [Family.separator])

theorem WellFormed.cut_text {w : Written} (h : w.WellFormed) :
    cut '/' w.text = if w.kind.shape = .block then some (w.address, w.length) else none := by
  unfold text
  split
  · exact cut_append _ h.slash_not_mem
  · rw [List.append_nil, cut_eq_none_iff]
    exact h.slash_not_mem

theorem WellFormed.parts_eq {w w' : Written} (h : w.WellFormed) (h' : w'.WellFormed)
    (htext : w.text = w'.text) :
    (w.kind.shape = .block ↔ w'.kind.shape = .block) ∧ w.address = w'.address ∧
      w.length = w'.length := by
  have hcut := h.cut_text.symm.trans ((congrArg (cut '/') htext).trans h'.cut_text)
  have hlength := h.length
  have hlength' := h'.length
  unfold text at htext
  by_cases hblock : w.kind.shape = .block <;> by_cases hblock' : w'.kind.shape = .block
  all_goals simp_all

theorem WellFormed.mem_text_cases {w : Written} (h : w.WellFormed) {c : Char} (hc : c ∈ w.text) :
    c ∈ w.address ∨ c = '/' ∨ isDigit c = true := by
  unfold text at hc
  rcases List.mem_append.mp hc with haddress | hlength
  · exact .inl haddress
  · have hdigits := h.length
    split at hlength
    · rename_i hblock
      simp only [hblock, if_true, isNumeral, Bool.and_eq_true, List.all_eq_true] at hdigits
      rcases List.mem_cons.mp hlength with hslash | hdigit
      · exact .inr (.inl hslash)
      · exact .inr (.inr (hdigits.2 c hdigit))
    · cases hlength

theorem WellFormed.separator_mem_iff {w : Written} (h : w.WellFormed) (f : Family) :
    f.separator ∈ w.text ↔ w.kind.family = f := by
  constructor
  · intro hmem
    by_contra hne
    have hsep : f.separator ≠ w.kind.family.separator := by
      revert hne
      cases f <;> cases w.kind.family <;> simp [Family.separator]
    rcases h.mem_text_cases hmem with haddress | hslash | hdigit
    · exact not_mem_join h.groups (separator_cases f) hsep haddress
    · cases f <;> simp [Family.separator] at hslash
    · cases f <;> exact absurd hdigit (by decide)
  · rintro rfl
    exact List.mem_append_left _ (separator_mem_join h.count)

theorem WellFormed.star_not_mem {w : Written} (h : w.WellFormed)
    (hshape : w.kind.shape ≠ .wildcard) : star ∉ w.groups := by
  intro hstar
  rcases h.groups star hstar with hgroup | ⟨hwild, _⟩
  · rw [not_isGroup_star] at hgroup
    cases hgroup
  · exact hshape hwild

theorem Canonical.shape_eq_exact_iff {w : Written} (h : w.Canonical)
    (hblock : w.kind.shape ≠ .block) : w.kind.shape = .exact ↔ star ∉ w.groups := by
  constructor
  · intro hexact
    exact h.star_not_mem (by simp [hexact])
  · intro hstar
    cases hshape : w.kind.shape with
    | exact => rfl
    | wildcard => exact absurd (h.star_mem hshape) hstar
    | block => exact absurd hshape hblock

theorem Canonical.shape_eq {w w' : Written} (h : w.Canonical) (h' : w'.Canonical)
    (hgroups : w.groups = w'.groups) (hblock : w.kind.shape = .block ↔ w'.kind.shape = .block) :
    w.kind.shape = w'.kind.shape := by
  by_cases hb : w.kind.shape = .block
  · rw [hb, hblock.mp hb]
  · have hexact := h.shape_eq_exact_iff hb
    rw [hgroups, ← h'.shape_eq_exact_iff ((not_congr hblock).mp hb)] at hexact
    revert hb hblock hexact
    cases w.kind.shape <;> cases w'.kind.shape <;> simp

theorem Canonical.eq_of_text_eq {w w' : Written} (h : w.Canonical) (h' : w'.Canonical)
    (htext : w.text = w'.text) : w = w' := by
  obtain ⟨hblock, haddress, hlength⟩ := h.parts_eq h'.toWellFormed htext
  have hfamily : w'.kind.family = w.kind.family := by
    rw [← h'.separator_mem_iff, ← htext, h.separator_mem_iff]
  have hgroups : w.groups = w'.groups := by
    unfold address at haddress
    rw [← splitOn_join h.count h.groups, haddress, ← hfamily, splitOn_join h'.count h'.groups]
  have hshape := h.shape_eq h' hgroups hblock
  obtain ⟨⟨f, shape⟩, gs, len⟩ := w
  obtain ⟨⟨f', shape'⟩, gs', len'⟩ := w'
  simp only at hfamily hgroups hshape hlength
  rw [hfamily, hgroups, hshape, hlength]

/-! ## The order of kinds -/

theorem before_eq_takeWhile {k : Kind} {before after : List Kind}
    (h : Kind.all = before ++ k :: after) : before = Kind.all.takeWhile (· != k) := by
  have hnodup : Kind.all.Nodup := by decide
  rw [h, List.nodup_append] at hnodup
  rw [h, List.takeWhile_append_of_pos]
  · simp
  · intro x hx
    simpa using hnodup.2.2 x hx k (by simp)

theorem exact_before_wildcard (f : Family) :
    ⟨f, .exact⟩ ∈ Kind.all.takeWhile (· != ⟨f, .wildcard⟩) := by
  cases f <;> decide

theorem WellFormed.exact_scan {w : Written} (h : w.WellFormed) (hwild : w.kind.shape = .wildcard)
    (hstar : star ∉ w.groups) :
    (⟨w.kind.family, .exact⟩ : Kind).scan w.text =
      some { w with kind := ⟨w.kind.family, .exact⟩ } := by
  refine scan_eq_some_iff.mpr
    ⟨rfl, ⟨h.count, fun g hg => ?_, ?_⟩, by simp [text, address, hwild]⟩
  · rcases h.groups g hg with hgroup | ⟨_, rfl⟩
    · exact .inl hgroup
    · exact absurd hg hstar
  · simpa [hwild] using h.length

theorem canonical_of_scan {cs : List Char} {w : Written} (h : Written.scan cs = some w) :
    w.Canonical ∧ w.text = cs := by
  obtain ⟨before, k, after, hall, hk, hbefore⟩ := List.findSome?_eq_some_iff.mp h
  obtain ⟨rfl, hw, rfl⟩ := scan_eq_some_iff.mp hk
  refine ⟨⟨hw, fun hwild => ?_⟩, rfl⟩
  by_contra hstar
  have hmem : (⟨w.kind.family, .exact⟩ : Kind) ∈ before := by
    rw [before_eq_takeWhile hall]
    obtain ⟨⟨f, shape⟩, _, _⟩ := w
    obtain rfl : shape = .wildcard := hwild
    exact exact_before_wildcard f
  have hexact := hw.exact_scan hwild hstar
  rw [hbefore _ hmem] at hexact
  cases hexact

theorem scan_eq_some_iff_canonical {cs : List Char} {w : Written} :
    Written.scan cs = some w ↔ w.Canonical ∧ w.text = cs := by
  constructor
  · exact canonical_of_scan
  · rintro ⟨hw, htext⟩
    have hscan : w.kind.scan cs = some w := scan_eq_some_iff.mpr ⟨rfl, hw.toWellFormed, htext⟩
    cases hfound : Written.scan cs with
    | none =>
      rw [List.findSome?_eq_none_iff.mp hfound _ w.kind.mem_all] at hscan
      cases hscan
    | some v =>
      obtain ⟨hv, hvtext⟩ := canonical_of_scan hfound
      rw [hw.eq_of_text_eq hv (htext.trans hvtext.symm)]

end Written

end PeerAccess
