import PeerAccess.Proofs.Compiling

/-!
# Matchers that accept the same addresses

A matcher without stray bits can be told from the addresses that it accepts: its value is one of
them, and what may be changed about that one shows the mask. Only an exact matcher has a double, the
one that looks at every bit through a mask of ones.
-/

namespace PeerAccess

open Text

/-- The value has no bit that the mask does not look at. -/
def Covers (mask value : Octets) : Prop := List.Forall₂ (fun m v => v &&& m = v) mask value

theorem and_ones (a : UInt8) : a &&& 0xFF = a := UInt8.and_neg_one

namespace Matcher

def mask : Matcher → Octets
  | exact os => List.replicate os.length 0xFF
  | masked m _ => m

def value : Matcher → Octets
  | exact os => os
  | masked _ v => v

/-- The same octets and no others, `m` without a mask and `m'` with one. -/
def Unmasks (m m' : Matcher) : Prop :=
  ∃ os : Octets, m = exact os ∧ m' = masked (List.replicate os.length 0xFF) os

def Tidy (m : Matcher) : Prop := Covers m.mask m.value

theorem mask_value_eq_iff {m m' : Matcher} :
    m.mask = m'.mask ∧ m.value = m'.value ↔ m = m' ∨ m.Unmasks m' ∨ m'.Unmasks m := by
  cases m <;> cases m' <;> simp only [mask, value, Unmasks] <;> grind

theorem accepts_exact_iff {os x : Octets} : (exact os).accepts x = true ↔ x = os := by
  rw [accepts, beq_iff_eq]
  exact eq_comm

theorem accepts_ones_iff {os x : Octets} :
    (masked (List.replicate os.length 0xFF) os).accepts x = true ↔ x = os := by
  induction os generalizing x with
  | nil => simp [accepts]
  | cons o os ih =>
    cases x with
    | nil => simp [accepts]
    | cons a x =>
      rw [List.length_cons, List.replicate_succ, accepts_masked_cons, ih, and_ones,
        List.cons.injEq]

theorem accepts_iff_masked (m : Matcher) (x : Octets) :
    m.accepts x = true ↔ (masked m.mask m.value).accepts x = true := by
  cases m with
  | exact os => rw [accepts_exact_iff, mask, value, accepts_ones_iff]
  | masked m v => rfl

end Matcher

/-! ## One octet -/

theorem octet_eq_iff {a b : UInt8} : a = b ↔ ∀ i : Fin 8, a.toBitVec[i] = b.toBitVec[i] := by
  rw [← UInt8.toBitVec_inj]
  constructor
  · intro h i
    rw [h]
  · intro h
    exact BitVec.eq_of_getElem_eq fun i hi => h ⟨i, hi⟩

theorem and_eq_self_iff {m v : UInt8} : v &&& m = v ↔ v &&& ~~~m = 0 := by
  simp [octet_eq_iff]

theorem or_not_and {m v : UInt8} (h : v &&& m = v) : (v ||| ~~~m) &&& m = v := by
  simp [octet_eq_iff] at h ⊢
  grind

theorem and_eq_self_of_or_not {m v m' : UInt8} (hv : v &&& m = v) (h : (v ||| ~~~m) &&& m' = v) :
    m' &&& m = m' := by
  simp [octet_eq_iff] at hv h ⊢
  grind

theorem octet_test_unique {m v m' v' : UInt8} (hv : v &&& m = v) (hv' : v' &&& m' = v')
    (h : ∀ a, a &&& m = v ↔ a &&& m' = v') : m = m' ∧ v = v' := by
  have hsame : v &&& m' = v' := (h v).mp hv
  have hsame' : v' &&& m = v := (h v').mpr hv'
  obtain rfl : v = v' := calc
    v = v &&& m' &&& m := by rw [hsame, hsame']
    _ = v &&& m &&& m' := by rw [UInt8.and_assoc, UInt8.and_comm m', UInt8.and_assoc]
    _ = v' := by rw [hv, hsame]
  -- A bit that only one of the masks looks at could be set for the other.
  have hle : m' &&& m = m' := and_eq_self_of_or_not hv ((h _).mp (or_not_and hv))
  have hle' : m &&& m' = m := and_eq_self_of_or_not hv' ((h _).mpr (or_not_and hv'))
  refine ⟨?_, rfl⟩
  rw [← hle, UInt8.and_comm, hle']

/-! ## All octets -/

theorem accepts_value {ms vs : Octets} (h : Covers ms vs) :
    (Matcher.masked ms vs).accepts vs = true := by
  induction h with
  | nil => rfl
  | cons hv _ ih => exact (accepts_masked_cons ..).mpr ⟨hv, ih⟩

theorem masked_unique {ms vs ms' vs' : Octets} (hv : Covers ms vs) (hv' : Covers ms' vs')
    (h : ∀ x, (Matcher.masked ms vs).accepts x = true ↔
      (Matcher.masked ms' vs').accepts x = true) : ms = ms' ∧ vs = vs' := by
  induction hv generalizing ms' vs' with
  | nil =>
    have hnil := Matcher.length_eq_size_of_accepts ((h []).mp rfl)
    obtain rfl := List.eq_nil_of_length_eq_zero hnil.symm
    cases hv'
    exact ⟨rfl, rfl⟩
  | @cons m v ms vs hhead htail ih =>
    cases hv' with
    | nil =>
      have hnil := Matcher.length_eq_size_of_accepts ((h []).mpr rfl)
      cases hnil
    | @cons m' v' ms' vs' hhead' htail' =>
      have hstep : ∀ a x, (a &&& m = v ∧ (Matcher.masked ms vs).accepts x = true) ↔
          a &&& m' = v' ∧ (Matcher.masked ms' vs').accepts x = true := fun a x => by
        simpa only [accepts_masked_cons] using h (a :: x)
      -- The octets after the first are held fixed to compare the first ones, and the other way.
      obtain ⟨rfl, rfl⟩ := octet_test_unique hhead hhead' fun a =>
        ⟨fun ha => ((hstep a vs).mp ⟨ha, accepts_value htail⟩).1,
          fun ha => ((hstep a vs').mpr ⟨ha, accepts_value htail'⟩).1⟩
      obtain ⟨rfl, rfl⟩ := ih htail' fun x =>
        ⟨fun hx => ((hstep v x).mp ⟨hhead, hx⟩).2, fun hx => ((hstep v x).mpr ⟨hhead, hx⟩).2⟩
      exact ⟨rfl, rfl⟩

namespace Matcher

theorem Tidy.accepts_eq_iff {m m' : Matcher} (hm : m.Tidy) (hm' : m'.Tidy) :
    (∀ x, m.accepts x = m'.accepts x) ↔ m = m' ∨ m.Unmasks m' ∨ m'.Unmasks m := by
  rw [← mask_value_eq_iff]
  constructor
  · intro h
    apply masked_unique hm hm'
    intro x
    rw [← accepts_iff_masked, ← accepts_iff_masked, h x]
  · rintro ⟨hmask, hvalue⟩ x
    rw [Bool.eq_iff_iff, accepts_iff_masked, accepts_iff_masked m', hmask, hvalue]

end Matcher

/-! ## Compiled patterns -/

theorem forall₂_replicate {α β : Type} {R : α → β → Prop} {as : List α} {b : β}
    (h : ∀ a ∈ as, R a b) : List.Forall₂ R as (List.replicate as.length b) := by
  induction as with
  | nil => exact .nil
  | cons a as ih => exact .cons (h a (by simp)) (ih fun a' ha' => h a' (by simp [ha']))

theorem covers_ones (os : Octets) : Covers (List.replicate os.length 0xFF) os :=
  (forall₂_replicate fun o _ => and_ones o).flip

theorem covers_openGroups (f : Family) (vs : List (Option Nat)) :
    Covers (vs.flatMap (Pattern.openGroupMask f)) (vs.flatMap (Pattern.openGroupOctets f)) := by
  induction vs with
  | nil => exact .nil
  | cons v vs ih =>
    rw [List.flatMap_cons, List.flatMap_cons]
    refine List.rel_append ?_ ih
    cases v with
    | none =>
      cases f <;> simp [Pattern.openGroupMask, Pattern.openGroupOctets, Family.octetsPerGroup]
    | some n =>
      rw [openGroupMask_eq, ← length_groupOctets f n]
      exact covers_ones _

theorem hasBitOutside_eq_false_iff {ms vs : Octets} (hlen : ms.length = vs.length) :
    hasBitOutside ms vs = false ↔ Covers ms vs := by
  unfold hasBitOutside Covers
  rw [List.forall₂_iff_zip, List.any_eq_false]
  simp [hlen, and_eq_self_iff]

theorem tidy_block_iff {f : Family} {ns : List Nat} {n : Nat} (hcount : ns.length = f.form.groups) :
    (Pattern.block f ns n).matcher.Tidy ↔ (Pattern.block f ns n).hasHostBits = false := by
  have hlen : (Pattern.groupsOctets f ns).length = f.size := by
    rw [length_groupsOctets, hcount, size_eq]
    rfl
  exact (hasBitOutside_eq_false_iff ((length_leadingMask ..).trans hlen.symm)).symm

theorem Content.WellFormed.tidy {c : Content} (h : c.WellFormed)
    (hhost : (Pattern.ofContent c).hasHostBits = false) : (Pattern.ofContent c).matcher.Tidy := by
  obtain ⟨f, vs, length⟩ := c
  cases length with
  | none =>
    by_cases hstar : none ∈ vs
    · rw [Pattern.ofContent_wildcard hstar]
      exact covers_openGroups f vs
    · obtain ⟨ns, rfl⟩ := exists_map_some hstar
      rw [Pattern.ofContent_exact]
      exact covers_ones _
  | some n => exact (tidy_block_iff ((List.length_map _).trans h.count)).mpr hhost

/-! ## Whole groups -/

theorem leadingMask_eq_append {size j : Nat} (h : j ≤ size) :
    leadingMask size (8 * j) = List.replicate j 0xFF ++ List.replicate (size - j) 0 := by
  induction size generalizing j with
  | zero =>
    obtain rfl : j = 0 := by omega
    rfl
  | succ size ih =>
    unfold leadingMask
    cases j with
    | zero =>
      rw [show 8 * 0 - 8 = 8 * 0 by rfl, ih (Nat.zero_le _)]
      rfl
    | succ j =>
      have hone : leadingOctet (8 * (j + 1)) = 0xFF := by
        unfold leadingOctet
        rw [Nat.sub_eq_zero_of_le (show 8 ≤ 8 * (j + 1) by omega)]
        rfl
      rw [show 8 * (j + 1) - 8 = 8 * j by omega, ih (by omega), hone, List.replicate_succ,
        Nat.add_sub_add_right, List.cons_append]

theorem flatMap_openGroupMask {f : Family} {vs : List (Option Nat)} {b : UInt8}
    (h : ∀ v ∈ vs, (if v = none then 0 else 0xFF) = b) :
    vs.flatMap (Pattern.openGroupMask f) = List.replicate (f.form.width * vs.length) b := by
  induction vs with
  | nil => rfl
  | cons v vs ih =>
    rw [List.flatMap_cons, openGroupMask_eq, h v (by simp), ih fun u hu => h u (by simp [hu]),
      List.replicate_append_replicate, List.length_cons, Nat.mul_succ, Nat.add_comm]

/-- Stars after the first groups leave out what a prefix of these groups leaves out. -/
theorem matcher_wildcard_eq_block {f : Family} {ns : List Nat} {k : Nat}
    (hcount : ns.length + k = f.form.groups) :
    (Pattern.wildcard f (ns.map some ++ List.replicate k none)).matcher =
      (Pattern.block f (ns ++ List.replicate k 0) (8 * f.form.width * ns.length)).matcher := by
  have hsize : f.size = f.form.width * ns.length + f.form.width * k := by
    rw [size_eq, AddressForm.size, ← hcount, Nat.mul_comm, Nat.mul_add]
  have hmask : (ns.map some ++ List.replicate k none).flatMap (Pattern.openGroupMask f) =
      leadingMask f.size (8 * f.form.width * ns.length) := by
    rw [List.flatMap_append, flatMap_openGroupMask (b := 0xFF) (by simp),
      flatMap_openGroupMask (b := 0) (by simp), List.length_map, List.length_replicate,
      Nat.mul_assoc, leadingMask_eq_append (by omega), hsize, Nat.add_sub_cancel_left]
  simp only [Pattern.matcher, hmask, flatMap_openGroupOctets]
  simp

theorem matcher_block_bits {f : Family} {ns : List Nat} {os : Octets} (h : Packs f ns os) :
    (Pattern.block f ns f.form.bits).matcher =
      .masked (List.replicate os.length 0xFF) (Pattern.groupsOctets f ns) := by
  rw [Pattern.matcher, bits_eq, size_eq, leadingMask_eq_append (le_refl _), Nat.sub_self,
    List.replicate_zero, List.append_nil, h.length]

/-! ## Spelled out -/

section
variable {f : Family} {gs : List (List Char)} {ns : List Nat} {len : List Char}
  (hgs : List.Forall₂ (SpellsGroup f) gs ns)
include hgs

theorem parse_stars {k : Nat} (hk : 0 < k) (hcount : gs.length + k = f.form.groups) :
    Pattern.parse (String.ofList (join f.form.separator (gs ++ List.replicate k star))) =
      .ok (.wildcard f (ns.map some ++ List.replicate k none)) := by
  have hstars :
      List.Forall₂ (SpellsOpenGroup f) (List.replicate k star) (List.replicate k none) := by
    have hstar : ∀ g ∈ List.replicate k star, SpellsOpenGroup f g none := by
      intro g hg
      rw [List.eq_of_mem_replicate hg]
      exact .star
    simpa using forall₂_replicate hstar
  have hspells := Spells.address f (by simpa using hcount)
    (List.rel_append (spellsOpenGroups_map_some_iff.mpr hgs) hstars)
  refine parse_eq_ok_iff.mpr ⟨_, by simpa using hspells, Pattern.ofContent_wildcard ?_⟩
  exact List.mem_append_right _ (List.mem_replicate.mpr ⟨by omega, rfl⟩)

theorem parse_address (hcount : gs.length = f.form.groups) :
    Pattern.parse (String.ofList (join f.form.separator gs)) = .ok (.exact f ns) := by
  have hspells := Spells.address f hcount (spellsOpenGroups_map_some_iff.mpr hgs)
  exact parse_eq_ok_iff.mpr ⟨_, by simpa using hspells, Pattern.ofContent_exact f ns⟩

theorem parse_slash {n : Nat} (hcount : gs.length = f.form.groups)
    (hlen : Numeral 10 1 f.form.lengthDigits len n) (hle : n ≤ f.form.bits) :
    Pattern.parse (String.ofList (join f.form.separator gs ++ '/' :: len)) =
      .ok (.block f ns n) := by
  have hspells := Spells.block f hcount hgs hlen hle
  exact parse_eq_ok_iff.mpr ⟨_, by simpa using hspells, Pattern.ofContent_block f ns n⟩

end

/-- A matcher is settled by what it accepts, up to a mask that looks at everything. So a pattern of
stars and the block with the same first groups have one matcher. -/
theorem matchers_canonical :
    (∀ s t p q, Pattern.parse s = .ok p → Pattern.parse t = .ok q →
      p.hasHostBits = false → q.hasHostBits = false →
      ((∀ x, p.matcher.accepts x = q.matcher.accepts x) ↔
        p.matcher = q.matcher ∨ p.matcher.Unmasks q.matcher ∨ q.matcher.Unmasks p.matcher)) ∧
    (∀ f gs ns zs len, List.Forall₂ (SpellsGroup f) gs ns → (∀ z ∈ zs, SpellsGroup f z 0) →
      gs.length < f.form.groups → gs.length + zs.length = f.form.groups →
      Numeral 10 1 f.form.lengthDigits len (8 * f.form.width * gs.length) →
      ∃ p q,
        Pattern.parse (String.ofList
          (join f.form.separator (gs ++ List.replicate zs.length star))) = .ok p ∧
        Pattern.parse (String.ofList (join f.form.separator (gs ++ zs) ++ '/' :: len)) = .ok q ∧
        q.hasHostBits = false ∧ p.matcher = q.matcher) ∧
    (∀ f gs ns len, List.Forall₂ (SpellsGroup f) gs ns → gs.length = f.form.groups →
      Numeral 10 1 f.form.lengthDigits len f.form.bits →
      ∃ p q os,
        Pattern.parse (String.ofList (join f.form.separator gs)) = .ok p ∧
        Pattern.parse (String.ofList (join f.form.separator gs ++ '/' :: len)) = .ok q ∧
        q.hasHostBits = false ∧ Packs f ns os ∧ (∀ x, p.matcher.accepts x = true ↔ x = os) ∧
        (∀ x, q.matcher.accepts x = true ↔ x = os) ∧ p.matcher ≠ q.matcher) := by
  refine ⟨?_, ?_, ?_⟩
  · intro s t p q hp hq hhost hhost'
    obtain ⟨c, hc, rfl⟩ := parse_eq_ok_iff.mp hp
    obtain ⟨c', hc', rfl⟩ := parse_eq_ok_iff.mp hq
    exact (hc.wellFormed.tidy hhost).accepts_eq_iff (hc'.wellFormed.tidy hhost')
  · intro f gs ns zs len hgs hzs hlt hcount hlen
    have hgroups : List.Forall₂ (SpellsGroup f) (gs ++ zs) (ns ++ List.replicate zs.length 0) :=
      List.rel_append hgs (forall₂_replicate hzs)
    have hns : ns.length + zs.length = f.form.groups := hgs.length_eq ▸ hcount
    have hmatcher := matcher_wildcard_eq_block hns
    have hle : 8 * f.form.width * gs.length ≤ f.form.bits := calc
      8 * f.form.width * gs.length ≤ 8 * f.form.width * f.form.groups :=
        Nat.mul_le_mul_left _ hlt.le
      _ = f.form.bits := by cases f <;> rfl
    rw [← hgs.length_eq] at hmatcher
    refine ⟨_, _, parse_stars hgs (by omega) hcount,
      parse_slash hgroups (by simpa using hcount) hlen hle, ?_, hmatcher⟩
    apply (tidy_block_iff (by simpa using hns)).mp
    rw [← hmatcher]
    exact covers_openGroups _ _
  · intro f gs ns len hgs hcount hlen
    have hns : ns.length = f.form.groups := hgs.length_eq ▸ hcount
    have hpacks := packs_groupsOctets hns fun n hn =>
      lt_of_spellsOpenGroups (spellsOpenGroups_map_some_iff.mpr hgs) n (List.mem_map_of_mem hn)
    have hmatcher := matcher_block_bits hpacks
    refine ⟨_, _, _, parse_address hgs hcount, parse_slash hgs hcount hlen (le_refl _), ?_, hpacks,
      fun x => Matcher.accepts_exact_iff, fun x => ?_, ?_⟩
    · apply (tidy_block_iff hns).mp
      rw [hmatcher]
      exact covers_ones _
    · rw [hmatcher, Matcher.accepts_ones_iff]
    · rw [hmatcher]
      exact Matcher.noConfusion

theorem matchers_of_host_and_stars :
    (∃ p q, Pattern.parse "10.2.3.4" = .ok p ∧ Pattern.parse "10.2.3.4/32" = .ok q ∧
      ∀ x, p.matcher.accepts x = q.matcher.accepts x) ∧
    (∃ p q, Pattern.parse "10.*.*.*" = .ok p ∧ Pattern.parse "10.0.0.0/8" = .ok q ∧
      q.hasHostBits = false ∧ p.matcher = q.matcher) ∧
    ∃ p q, Pattern.parse "10.2.3.4" = .ok p ∧ Pattern.parse "10.2.3.4/32" = .ok q ∧
      p.matcher.accepts [10, 2, 3, 4] = true ∧ q.matcher.accepts [10, 2, 3, 4] = true ∧
      p.matcher ≠ q.matcher := by
  have hgroup : ∀ g n, Family.v4.isGroup g = true → Pattern.readGroup .v4 g = .ok n →
      SpellsGroup .v4 g n := fun g n hg hn => (spellsGroup_iff .v4 g n).mpr ⟨hg, hn⟩
  obtain ⟨hcanonical, hstars, hfull⟩ := matchers_canonical
  refine ⟨?_, ?_, ?_⟩
  · refine ⟨.exact .v4 [10, 2, 3, 4], .block .v4 [10, 2, 3, 4] 32, rfl, rfl, ?_⟩
    exact (hcanonical "10.2.3.4" "10.2.3.4/32" _ _ rfl rfl rfl rfl).mpr
      (.inr (.inl ⟨[10, 2, 3, 4], rfl, rfl⟩))
  · exact hstars .v4 [['1', '0']] [10] [['0'], ['0'], ['0']] ['8']
      (.cons (hgroup _ _ rfl rfl) .nil) (by simpa using hgroup ['0'] 0 rfl rfl) (by decide) rfl
      (numeral_ten_iff.mpr ⟨rfl, rfl⟩)
  · obtain ⟨p, q, os, hp, hq, _, hos, hexact, hblock, hne⟩ :=
      hfull .v4 [['1', '0'], ['2'], ['3'], ['4']] [10, 2, 3, 4] ['3', '2']
        (.cons (hgroup _ _ rfl rfl) (.cons (hgroup _ _ rfl rfl)
          (.cons (hgroup _ _ rfl rfl) (.cons (hgroup _ _ rfl rfl) .nil)))) rfl
        (numeral_ten_iff.mpr ⟨rfl, rfl⟩)
    have hten : [10, 2, 3, 4] = os := Packs.unique ⟨rfl, rfl⟩ hos
    exact ⟨p, q, hp, hq, (hexact _).mpr hten, (hblock _).mpr hten, hne⟩

end PeerAccess
