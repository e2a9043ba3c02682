import PeerAccess.Proofs.AddressText
import PeerAccess.Proofs.Compiling
import PeerAccess.Proofs.FrontEnds

/-!
# Addresses as patterns

An address may be read as a pattern too. The reader of patterns leaves no groups out and does not
mind leading zeros, the reader of addresses has `::` and dotted endings; a text that both take means
the same octets to both. A rule made of it lets the address in, unless it is a mapped one.
-/

namespace PeerAccess

open Text Address

/-- A group with a zero in front of other digits. -/
def RedundantZero (g : List Char) : Prop := ∃ d r, g = '0' :: d :: r

/-- Addresses are written with these characters; a star and a slash are not among them. -/
def IsAddressChar (c : Char) : Prop := isHexDigit c = true ∨ c = '.' ∨ c = ':'

theorem IsAddressChar.ne_mark {c : Char} (h : IsAddressChar c) : c ≠ '*' ∧ c ≠ '/' := by
  unfold IsAddressChar at h
  constructor <;> rintro rfl <;> exact absurd h (by decide)

theorem not_redundantZero_iff {g : List Char} (h : g ≠ []) :
    ¬ RedundantZero g ↔ g.length = 1 ∨ g.head? ≠ some '0' := by
  obtain ⟨c, r, rfl⟩ := List.exists_cons_of_ne_nil h
  cases r <;> simp [RedundantZero]

theorem eq_or_mem_splitOn (sep : Char) {c : Char} {cs : List Char} (h : c ∈ cs) :
    c = sep ∨ ∃ g ∈ cs.splitOn sep, c ∈ g := by
  apply Written.mem_join
  unfold join
  rwa [List.intercalate_splitOn]

theorem SpellsGroup.isHexDigit {f : Family} {g : List Char} {n : Nat} (h : SpellsGroup f g n) :
    ∀ c ∈ g, Text.isHexDigit c = true :=
  Written.isHexDigit_of_mem_isGroup ((spellsGroup_iff f g n).mp h).1

theorem spellsGroup_v4_iff {g : List Char} {n : Nat} :
    SpellsGroup .v4 g n ↔ (isNumeral isDigit 1 3 g = true ∧ decimal g = n) ∧ n < 256 := by
  unfold SpellsGroup
  rw [← numeral_ten_iff, Nat.lt_succ_iff]
  simp [Family.form]

theorem spellsGroup_v6_iff {g : List Char} {n : Nat} :
    SpellsGroup .v6 g n ↔ isNumeral isHexDigit 1 4 g = true ∧ hexadecimal g = n := by
  unfold SpellsGroup
  rw [← numeral_sixteen_iff]
  simp [Family.form]

theorem exists_groups_of_spells {f : Family} {cs : List Char} {ns : List Nat}
    (h : Spells cs ⟨f, ns.map some, none⟩) :
    ∃ gs : List (List Char), gs.length = f.form.groups ∧ List.Forall₂ (SpellsGroup f) gs ns ∧
      join f.separator gs = cs := by
  -- The content is not a variable yet, so the cases could not be told apart.
  generalize hc : (⟨f, ns.map some, none⟩ : Content) = c at h
  cases h with
  | @address _ gs _ hcount hgroups =>
    obtain ⟨rfl, rfl, -⟩ := Content.mk.inj hc
    exact ⟨gs, hcount, spellsOpenGroups_map_some_iff.mp hgroups, by rw [separator_eq]⟩
  | block => simp at hc

/-! ## IPv4 -/

namespace Ipv4

theorem octet?_eq_some_iff {g : List Char} {o : UInt8} :
    octet? g = some o ↔ ¬ RedundantZero g ∧ SpellsGroup .v4 g o.toNat := by
  have hne : isNumeral isDigit 1 3 g = true → g ≠ [] := by
    rintro h rfl
    cases h
  rw [spellsGroup_v4_iff]
  unfold octet?
  constructor
  · intro h
    split at h
    · rename_i hg
      obtain ⟨hnumeral, hzero, hlt⟩ := hg
      obtain rfl := Option.some.inj h
      rw [UInt8.toNat_ofNat_of_lt' hlt]
      exact ⟨(not_redundantZero_iff (hne hnumeral)).mpr hzero, ⟨hnumeral, rfl⟩, hlt⟩
    · cases h
  · rintro ⟨hzero, ⟨hnumeral, hvalue⟩, hlt⟩
    rw [hvalue, if_pos ⟨hnumeral, (not_redundantZero_iff (hne hnumeral)).mp hzero, hlt⟩,
      UInt8.ofNat_toNat]

theorem ofOctets?_eq_some_iff {os : Octets} {a : Ipv4} : ofOctets? os = some a ↔ os = a.octets := by
  unfold ofOctets?
  constructor
  · intro h
    split at h
    · rw [← Option.some.inj h]
    · cases h
  · rintro rfl
    exact dif_pos a.length_octets

/-- The groups are those of a pattern, and their zeros are needed. -/
theorem read_eq_some_iff {cs : List Char} {a : Ipv4} :
    read cs = some a ↔
      (∀ g ∈ cs.splitOn '.', ¬ RedundantZero g) ∧
        List.Forall₂ (SpellsGroup .v4) (cs.splitOn '.') (a.octets.map UInt8.toNat) := by
  unfold read
  simp only [Option.bind_eq_some_iff, ofOctets?_eq_some_iff, exists_eq_right, mapM_eq_some_iff,
    octet?_eq_some_iff]
  rw [List.forall₂_and_left, List.forall₂_map_right_iff]

theorem exists_read_iff {cs : List Char} {ns : List Nat} (hcount : ns.length = 4)
    (h : List.Forall₂ (SpellsGroup .v4) (cs.splitOn '.') ns) :
    (∃ a, read cs = some a) ↔ ∀ g ∈ cs.splitOn '.', ¬ RedundantZero g := by
  constructor
  · rintro ⟨a, ha⟩
    exact (read_eq_some_iff.mp ha).1
  · intro hzeros
    have hoctets : (ns.map UInt8.ofNat).map UInt8.toNat = ns := by
      rw [List.map_map]
      refine (List.map_congr_left fun n hn => ?_).trans (List.map_id ns)
      obtain ⟨g, _, hg⟩ := exists_partner h.flip hn
      exact UInt8.toNat_ofNat_of_lt' (spellsGroup_v4_iff.mp hg).2
    refine ⟨⟨ns.map UInt8.ofNat, (List.length_map _).trans hcount⟩, ?_⟩
    exact read_eq_some_iff.mpr ⟨hzeros, by rwa [hoctets]⟩

theorem isAddressChar_of_read {cs : List Char} {a : Ipv4} (h : read cs = some a) :
    ∀ c ∈ cs, IsAddressChar c := by
  intro c hc
  rcases eq_or_mem_splitOn '.' hc with hdot | ⟨g, hg, hcg⟩
  · exact .inr (.inl hdot)
  · obtain ⟨o, _, hgroup⟩ := exists_partner (read_eq_some_iff.mp h).2 hg
    exact .inl (hgroup.isHexDigit c hcg)

theorem spells_of_read {cs : List Char} {a : Ipv4} (h : read cs = some a) :
    Spells cs ⟨.v4, (a.octets.map UInt8.toNat).map some, none⟩ := by
  have hgroups := (read_eq_some_iff.mp h).2
  have hcount : (cs.splitOn '.').length = 4 := by
    rw [hgroups.length_eq, List.length_map, a.length_octets]
  have hspells := Spells.address .v4 hcount (spellsOpenGroups_map_some_iff.mpr hgroups)
  rwa [join, Family.form, List.intercalate_splitOn] at hspells

theorem groupsOctets_octets (a : Ipv4) :
    Pattern.groupsOctets .v4 (a.octets.map UInt8.toNat) = a.octets := by
  simp [Pattern.groupsOctets, Family.groupOctets, List.flatMap_map]

end Ipv4

/-! ## IPv6 -/

namespace Ipv6

theorem segment?_of_spells {g : List Char} {n : Nat} (h : SpellsGroup .v6 g n) :
    segment? g = some (UInt16.ofNat n) := by
  obtain ⟨hnumeral, rfl⟩ := spellsGroup_v6_iff.mp h
  exact if_pos hnumeral

theorem segments?_of_spells {gs : List (List Char)} {ns : List Nat}
    (h : List.Forall₂ (SpellsGroup .v6) gs ns) (dotted : Bool) :
    segments? dotted gs = some (ns.map UInt16.ofNat) := by
  induction h with
  | nil => rfl
  | @cons g n gs ns hg hgs ih =>
    cases hgs with
    | nil => simp [segments?, segment?_of_spells hg]
    | cons =>
      rw [segments?]
      · rw [segment?_of_spells hg, ih]
        rfl
      · simp

theorem segmentOctets_ofNat (n : Nat) :
    segmentOctets (UInt16.ofNat n) = Family.v6.groupOctets n := by
  unfold segmentOctets Family.groupOctets
  congr 1
  · rw [← UInt8.toNat_inj, toNat_high]
    simp
    omega
  · congr 1
    rw [← UInt8.toNat_inj, toNat_low]
    simp

theorem groupsOctets_eq (ns : List Nat) :
    Pattern.groupsOctets .v6 ns = (ns.map UInt16.ofNat).flatMap segmentOctets := by
  unfold Pattern.groupsOctets
  rw [List.flatMap_map]
  simp only [segmentOctets_ofNat]

theorem read_join {gs : List (List Char)} {ns : List Nat} (hcount : gs.length = 8)
    (h : List.Forall₂ (SpellsGroup .v6) gs ns) :
    ∃ a, read (join ':' gs) = some a ∧ a.octets = Pattern.groupsOctets .v6 ns := by
  have hgroup : ∀ g ∈ gs, g ≠ [] ∧ ':' ∉ g := by
    intro g hg
    obtain ⟨n, _, hn⟩ := exists_partner h hg
    refine ⟨?_, fun hcolon => absurd (hn.isHexDigit ':' hcolon) (by decide)⟩
    rintro rfl
    cases (spellsGroup_v6_iff.mp hn).1
  have hgap : cutGap (join ':' gs) = none := by
    have := cutGap_join hgroup []
    rwa [List.append_nil] at this
  have hsplit : (join ':' gs).splitOn ':' = gs := by
    apply List.splitOn_intercalate
    · exact fun g hg => (hgroup g hg).2
    · rintro rfl
      cases hcount
  have hlen : (ns.map UInt16.ofNat).length = 8 := by
    rw [List.length_map, ← h.length_eq, hcount]
  refine ⟨⟨ns.map UInt16.ofNat, hlen⟩, ?_, (groupsOctets_eq ns).symm⟩
  unfold read
  rw [hgap]
  simp only [hsplit, segments?_of_spells h, Option.bind_some, ofSegments?]
  exact dif_pos hlen

theorem read_of_spells {cs : List Char} {ns : List Nat}
    (h : Spells cs ⟨.v6, ns.map some, none⟩) :
    ∃ a, read cs = some a ∧ a.octets = Pattern.groupsOctets .v6 ns := by
  obtain ⟨gs, hcount, hgroups, rfl⟩ := exists_groups_of_spells h
  exact read_join hcount hgroups

theorem read_of_no_colon {cs : List Char} (h : ':' ∉ cs) : read cs = none := by
  have hgap : cutGap cs = none := by
    have := cutGap_append h []
    rwa [List.append_nil] at this
  unfold read
  rw [hgap]
  simp only [List.splitOn_eq_singleton h, segments?]
  cases segment? cs with
  | some s => rfl
  | none =>
    cases hv : Ipv4.read cs with
    | none => rfl
    | some v =>
      have := length_toSegments_four v.length_octets
      simp [ofSegments?, this]

theorem isAddressChar_of_segment {g : List Char} {s : UInt16} (h : segment? g = some s) :
    ∀ c ∈ g, IsAddressChar c := by
  unfold segment? at h
  split at h
  · rename_i hnumeral
    simp only [isNumeral, Bool.and_eq_true, List.all_eq_true] at hnumeral
    exact fun c hc => .inl (hnumeral.2 c hc)
  · cases h

theorem isAddressChar_of_segments {dotted : Bool} {gs : List (List Char)} {ss : List UInt16}
    (h : segments? dotted gs = some ss) : ∀ g ∈ gs, ∀ c ∈ g, IsAddressChar c := by
  induction gs generalizing ss with
  | nil => simp
  | cons g gs ih =>
    cases gs with
    | nil =>
      rw [List.forall_mem_singleton]
      rw [segments?] at h
      split at h
      · exact isAddressChar_of_segment ‹_›
      · split at h
        · obtain ⟨v, hv, _⟩ := Option.map_eq_some_iff.mp h
          exact Ipv4.isAddressChar_of_read hv
        · cases h
    | cons g' gs =>
      rw [segments?] at h
      · simp only [Option.bind_eq_bind, Option.bind_eq_some_iff] at h
        obtain ⟨s, hs, rest, hrest, _⟩ := h
        rw [List.forall_mem_cons]
        exact ⟨isAddressChar_of_segment hs, ih hrest⟩
      · simp

theorem isAddressChar_of_pieces {cs : List Char}
    (h : ∀ g ∈ cs.splitOn ':', ∀ c ∈ g, IsAddressChar c) : ∀ c ∈ cs, IsAddressChar c := by
  intro c hc
  rcases eq_or_mem_splitOn ':' hc with hcolon | ⟨g, hg, hcg⟩
  · exact .inr (.inr hcolon)
  · exact h g hg c hcg

theorem isAddressChar_of_side {dotted : Bool} {cs : List Char} {ss : List UInt16}
    (h : side? dotted cs = some ss) : ∀ c ∈ cs, IsAddressChar c := by
  unfold side? at h
  split at h
  · simp_all
  · exact isAddressChar_of_pieces (isAddressChar_of_segments h)

theorem cutGap_eq_some {cs l r : List Char} (h : cutGap cs = some (l, r)) :
    cs = l ++ ':' :: ':' :: r := by
  fun_induction cutGap cs generalizing l with
  | case1 r' => simp_all
  | case2 c cs hc ih =>
    simp only [Option.map_eq_some_iff, Prod.mk.injEq, Prod.exists] at h
    obtain ⟨l', r', hcs, rfl, rfl⟩ := h
    rw [ih hcs]
    rfl
  | case3 => cases h

theorem isAddressChar_of_read {cs : List Char} {a : Ipv6} (h : read cs = some a) :
    ∀ c ∈ cs, IsAddressChar c := by
  unfold read at h
  split at h
  · obtain ⟨ss, hss, _⟩ := Option.bind_eq_some_iff.mp h
    exact isAddressChar_of_pieces (isAddressChar_of_segments hss)
  · rename_i l r hgap
    simp only [Option.bind_eq_bind, Option.bind_eq_some_iff] at h
    obtain ⟨before, hbefore, after, hafter, _⟩ := h
    rw [cutGap_eq_some hgap]
    simp only [List.mem_append, List.mem_cons]
    rintro c (hc | rfl | rfl | hc)
    · exact isAddressChar_of_side hbefore c hc
    · exact .inr (.inr rfl)
    · exact .inr (.inr rfl)
    · exact isAddressChar_of_side hafter c hc

end Ipv6

/-! ## Both readers -/

theorem Ip.read_of_parse_v4 {s : String} {a : Ipv4} (h : parse? s = some (.v4 a)) :
    Ipv4.read s.toList = some a := by
  unfold parse? read at h
  cases hv : Ipv4.read s.toList <;> simp_all

theorem Ip.read_of_parse_v6 {s : String} {a : Ipv6} (h : parse? s = some (.v6 a)) :
    Ipv6.read s.toList = some a := by
  unfold parse? read at h
  cases hv : Ipv4.read s.toList <;> simp_all

theorem Ip.exists_parse_iff {s : String} :
    (∃ ip, parse? s = some ip) ↔
      (∃ a, Ipv4.read s.toList = some a) ∨ ∃ a, Ipv6.read s.toList = some a := by
  unfold parse? read
  cases Ipv4.read s.toList <;> simp

theorem exists_exact_of_spells {cs : List Char} {c : Content} (h : Spells cs c)
    (hchars : ∀ ch ∈ cs, IsAddressChar ch) :
    ∃ (f : Family) (ns : List Nat), c = ⟨f, ns.map some, none⟩ := by
  cases h with
  | @address f gs vs hcount hgroups =>
    have hnone : none ∉ vs := by
      intro hmem
      have hstar := (star_mem_iff hgroups).mpr hmem
      exact (hchars '*' (Written.mem_join_of_mem hstar (by decide))).ne_mark.1 rfl
    obtain ⟨ns, rfl⟩ := exists_map_some hnone
    exact ⟨f, ns, rfl⟩
  | block => exact absurd rfl (hchars '/' (by simp)).ne_mark.2

theorem colon_not_mem_of_spells_v4 {cs : List Char} {ns : List Nat}
    (h : Spells cs ⟨.v4, ns.map some, none⟩) : ':' ∉ cs := by
  obtain ⟨gs, _, hgroups, rfl⟩ := exists_groups_of_spells h
  have hall := (spellsGroups_iff.mp hgroups).1
  exact Written.not_mem_join (k := ⟨.v4, .exact⟩) (fun g hg => .inl (hall g hg)) (by simp)
    (by decide)

theorem Ipv4.parse_of_read {s : String} {a : Ipv4} (h : read s.toList = some a) :
    Pattern.parse s = .ok (.exact .v4 (a.octets.map UInt8.toNat)) :=
  parse_eq_ok_iff.mpr ⟨_, spells_of_read h, Pattern.ofContent_exact .v4 _⟩

theorem Ipv6.matcher_of_read {s : String} {a : Ipv6} {p : Pattern} (hp : Pattern.parse s = .ok p)
    (h : read s.toList = some a) : p.matcher = .exact a.octets := by
  obtain ⟨c, hc, rfl⟩ := parse_eq_ok_iff.mp hp
  obtain ⟨f, ns, rfl⟩ := exists_exact_of_spells hc (isAddressChar_of_read h)
  rw [Pattern.ofContent_exact]
  cases f with
  | v4 =>
    rw [read_of_no_colon (colon_not_mem_of_spells_v4 hc)] at h
    cases h
  | v6 =>
    obtain ⟨b, hb, hoctets⟩ := read_of_spells hc
    obtain rfl := Option.some.inj (h.symm.trans hb)
    rw [Pattern.matcher, ← hoctets]

/-- A text that both readers take means the same octets to both. -/
theorem matcher_of_address {s : String} {p : Pattern} {ip : Ip} (hp : Pattern.parse s = .ok p)
    (hip : Ip.parse? s = some ip) : p.matcher = .exact ip.octets := by
  cases ip with
  | v4 a =>
    obtain rfl := Except.ok.inj (hp.symm.trans (Ipv4.parse_of_read (Ip.read_of_parse_v4 hip)))
    rw [Pattern.matcher, a.groupsOctets_octets]
    rfl
  | v6 a => exact Ipv6.matcher_of_read hp (Ip.read_of_parse_v6 hip)

/-! ## Written addresses -/

section
variable {f : Family} {cs : List Char}

theorem groups_of_classify (h : Kind.classify cs = some ⟨f, .exact⟩) :
    (cs.splitOn f.separator).length = f.form.groups ∧
      ∀ g ∈ cs.splitOn f.separator, f.isGroup g = true := by
  have haccepts : Kind.accepts ⟨f, .exact⟩ cs = true :=
    List.find?_some (p := fun k : Kind => k.accepts cs) h
  unfold Kind.accepts Kind.scan groupsWhere at haccepts
  dsimp only at haccepts
  split at haccepts
  · rename_i hgroups
    rw [← groupCount_eq]
    exact ⟨hgroups.1, List.all_eq_true.mp hgroups.2⟩
  · cases haccepts

theorem spellsGroups_of_classify (h : Kind.classify cs = some ⟨f, .exact⟩)
    (hbound : ∀ g ∈ cs.splitOn f.separator, f.groupValue g < f.groupBound) :
    List.Forall₂ (SpellsGroup f) (cs.splitOn f.separator)
      ((cs.splitOn f.separator).map f.groupValue) := by
  rw [List.forall₂_map_right_iff, List.forall₂_same]
  intro g hg
  exact (spellsGroup_iff f g _).mpr
    ⟨(groups_of_classify h).2 g hg, (readGroup_eq_ok_iff f g _).mpr ⟨rfl, hbound g hg⟩⟩

theorem spells_of_classify (h : Kind.classify cs = some ⟨f, .exact⟩)
    (hbound : ∀ g ∈ cs.splitOn f.separator, f.groupValue g < f.groupBound) :
    Spells cs ⟨f, ((cs.splitOn f.separator).map f.groupValue).map some, none⟩ := by
  have hspells := Spells.address f (groups_of_classify h).1
    (spellsOpenGroups_map_some_iff.mpr (spellsGroups_of_classify h hbound))
  rwa [← separator_eq, join, List.intercalate_splitOn] at hspells

end

theorem v6_groups_bounded {cs : List Char} (h : Kind.classify cs = some ⟨.v6, .exact⟩) :
    ∀ g ∈ cs.splitOn ':', Family.v6.groupValue g < Family.v6.groupBound := by
  intro g hg
  exact lt_groupBound_of_isGroup_v6 ((groups_of_classify h).2 g hg)

/-! ## Checking an address against itself -/

theorem Policy.allows_allow (s : String) (m : Matcher) (x : Octets) :
    allows { rules := [⟨.allow, s, m⟩] } x = m.accepts x := by
  rw [Bool.eq_iff_iff, allows_of_allow_only (by simp)]
  simp [Rule.accepts]

theorem check_own {s : String} {p : Pattern} {ip : Ip} (hp : Pattern.parse s = .ok p)
    (hip : Ip.parse? s = some ip) :
    (check { allow := [s] } [s]).map Report.text =
      .ok (s ++ s!" {(Action.ofVerdict (p.matcher.accepts ip.canonical.octets)).word}\n") := by
  have htrim : trimmed s = s := by
    unfold trimmed
    rw [trim_of_parse hp, String.ofList_toList]
  have hcompile : Declaration.compile ⟨false, [⟨.allow, s⟩]⟩ = .ok [⟨.allow, s, p.matcher⟩] :=
    mapM_eq_ok_iff.mpr (.cons (map_eq_ok_iff.mpr ⟨p, hp, rfl⟩) .nil)
  have hd : RuleFlags.toDeclaration { allow := [s] } = .ok ⟨false, [⟨.allow, s⟩]⟩ :=
    RuleFlags.toDeclaration_eq_ok_iff.mpr ⟨rfl, _, hcompile⟩
  have hpolicy : Policy.ofDeclaration ⟨false, [⟨.allow, s⟩]⟩ =
      .ok { rules := [⟨.allow, s, p.matcher⟩] } :=
    Policy.ofDeclaration_eq_ok_iff.mpr ⟨hcompile, rfl⟩
  have hcheck := check_singleton hd hpolicy (htrim.symm ▸ hip)
  rw [htrim, Policy.admits, Policy.allows_allow] at hcheck
  rw [hcheck]
  simp only [String.append_assoc]
  rfl

theorem check_own_mapped {s : String} {p : Pattern} {v : Ipv4} (hp : Pattern.parse s = .ok p)
    (hip : Ip.parse? s = some (.v6 v.toMapped)) :
    (Ip.v6 v.toMapped).canonical = .v4 v ∧ p.matcher.accepts v.octets = false ∧
      (check { allow := [s] } [s]).map Report.text = .ok s!"{s} deny\n" := by
  have hcanonical : (Ip.v6 v.toMapped).canonical = .v4 v :=
    Ip.canonical_of_mapped v.octets_toMapped
  have hreject : p.matcher.accepts v.octets = false := by
    rw [matcher_of_address hp hip, Bool.eq_false_iff]
    intro haccepts
    have hlen := Matcher.length_eq_size_of_accepts haccepts
    rw [v.length_octets, Matcher.size, Ip.octets, Ipv6.length_octets] at hlen
    cases hlen
  have hcheck := check_own hp hip
  rw [hcanonical, Ip.octets, hreject] at hcheck
  exact ⟨hcanonical, hreject, hcheck⟩

theorem check_own_unmapped {s : String} {p : Pattern} {ip : Ip} (hp : Pattern.parse s = .ok p)
    (hip : Ip.parse? s = some ip) (hmapped : ∀ v, ip ≠ .v6 (Ipv4.toMapped v)) :
    ip.canonical = ip ∧ (check { allow := [s] } [s]).map Report.text = .ok s!"{s} allow\n" := by
  have hcanonical : ip.canonical = ip := by
    cases ip with
    | v4 a => rfl
    | v6 a =>
      apply Ip.canonical_of_not_mapped
      rw [Ipv6.mapped_iff, not_exists]
      intro v hv
      exact hmapped v (by rw [Ipv6.eq_toMapped hv])
  have hcheck := check_own hp hip
  have haccepts : p.matcher.accepts ip.octets = true := by
    rw [matcher_of_address hp hip, Matcher.accepts, beq_self_eq_true]
  rw [hcanonical, haccepts] at hcheck
  exact ⟨hcanonical, hcheck⟩

/-- Where the readers of patterns and of addresses both take a text, they take the same octets from
it. Full groups of IPv6 are taken by both; dotted groups too, unless a zero is written in front of
other digits. -/
theorem addresses_as_patterns (s : String) :
    (∀ p ip, Pattern.parse s = .ok p → Ip.parse? s = some ip → p.matcher = .exact ip.octets) ∧
      (Kind.classify s.toList = some ⟨.v6, .exact⟩ →
        (∃ p, Pattern.parse s = .ok p) ∧ ∃ ip, Ip.parse? s = some ip) ∧
      (Kind.classify s.toList = some ⟨.v4, .exact⟩ →
        (∀ g ∈ s.toList.splitOn '.', decimal g ≤ 255) →
          Pattern.parse s = .ok (.exact .v4 ((s.toList.splitOn '.').map decimal)) ∧
            ((∃ ip, Ip.parse? s = some ip) ↔
              ∀ g ∈ s.toList.splitOn '.', ¬ RedundantZero g)) ∧
      ∀ p ip, Pattern.parse s = .ok p → Ip.parse? s = some ip →
        (∀ v : Ipv4, ip = .v6 v.toMapped →
          ip.canonical = .v4 v ∧ p.matcher.accepts v.octets = false ∧
            (check { allow := [s] } [s]).map Report.text = .ok s!"{s} deny\n") ∧
        ((∀ v : Ipv4, ip ≠ .v6 v.toMapped) →
          ip.canonical = ip ∧
            (check { allow := [s] } [s]).map Report.text = .ok s!"{s} allow\n") := by
  refine ⟨fun p ip => matcher_of_address, fun hkind => ?_, fun hkind hbound => ?_,
    fun p ip hp hip => ⟨?_, check_own_unmapped hp hip⟩⟩
  · have hspells := spells_of_classify hkind (v6_groups_bounded hkind)
    obtain ⟨a, ha, _⟩ := Ipv6.read_of_spells hspells
    exact ⟨⟨_, parse_eq_ok_iff.mpr ⟨_, hspells, rfl⟩⟩, Ip.exists_parse_iff.mpr (.inr ⟨a, ha⟩)⟩
  · have hlt : ∀ g ∈ s.toList.splitOn '.', Family.v4.groupValue g < Family.v4.groupBound :=
      fun g hg => Nat.lt_succ_of_le (hbound g hg)
    have hspells := spells_of_classify hkind hlt
    refine ⟨parse_eq_ok_iff.mpr ⟨_, hspells, Pattern.ofContent_exact .v4 _⟩, ?_⟩
    rw [← Ipv4.exists_read_iff ((List.length_map _).trans (groups_of_classify hkind).1)
      (spellsGroups_of_classify hkind hlt), Ip.exists_parse_iff, or_iff_left]
    rintro ⟨a, ha⟩
    rw [Ipv6.read_of_no_colon (colon_not_mem_of_spells_v4 hspells)] at ha
    cases ha
  · rintro v rfl
    exact check_own_mapped hp hip

/-- A zero too many is no matter for a pattern; a mapped address is not let in by its own text. -/
theorem addresses_as_patterns_mapped :
    Kind.classify "10.0.007.1".toList = some ⟨.v4, .exact⟩ ∧
      Pattern.parse "10.0.007.1" = .ok (.exact .v4 [10, 0, 7, 1]) ∧
      (¬ ∃ ip, Ip.parse? "10.0.007.1" = some ip) ∧
      Kind.classify "0:0:0:0:0:FFFF:0a00:1".toList = some ⟨.v6, .exact⟩ ∧
      (check { allow := ["0:0:0:0:0:FFFF:0a00:1"] } ["0:0:0:0:0:FFFF:0a00:1"]).map Report.text =
        .ok "0:0:0:0:0:FFFF:0a00:1 deny\n" ∧
      (check { allow := ["10.0.7.1"] } ["10.0.7.1"]).map Report.text = .ok "10.0.7.1 allow\n" := by
  have hkind : Kind.classify "10.0.007.1".toList = some ⟨.v4, .exact⟩ := by decide
  obtain ⟨hparse, hzeros⟩ := (addresses_as_patterns "10.0.007.1").2.2.1 hkind (by decide)
  have hkind' : Kind.classify "0:0:0:0:0:FFFF:0a00:1".toList = some ⟨.v6, .exact⟩ := by decide
  obtain ⟨_, hboth, _, hcheck⟩ := addresses_as_patterns "0:0:0:0:0:FFFF:0a00:1"
  obtain ⟨⟨p, hp⟩, _⟩ := hboth hkind'
  have hmapped : Ip.parse? "0:0:0:0:0:FFFF:0a00:1" =
      some (.v6 (Ipv4.toMapped ⟨[10, 0, 0, 1], rfl⟩)) := rfl
  refine ⟨hkind, hparse, ?_, hkind', ((hcheck p _ hp hmapped).1 _ rfl).2.2, ?_⟩
  · rw [hzeros]
    exact fun h => h ['0', '0', '7'] (by decide) ⟨'0', ['7'], rfl⟩
  · have hdotted : Ip.parse? "10.0.7.1" = some (.v4 ⟨[10, 0, 7, 1], rfl⟩) := rfl
    exact (((addresses_as_patterns "10.0.7.1").2.2.2 _ _ rfl hdotted).2 nofun).2

end PeerAccess
