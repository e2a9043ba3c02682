import PeerAccess.Proofs.Mask
import PeerAccess.Proofs.Spelling

/-!
# What a pattern compiles to

The matcher of a text, described from its numbers: the groups packed into octets, a mask that leaves
out the stars, a mask of leading ones. How the numbers were written does not matter.
-/

namespace PeerAccess

def AddressForm.size (a : AddressForm) : Nat := a.groups * a.width

/-- The number of the address with these groups, the first one highest. -/
def Family.number (f : Family) (ns : List Nat) : Nat := Nat.ofDigits (256 ^ f.form.width) ns.reverse

/-- The groups side by side in octets. -/
structure Packs (f : Family) (ns : List Nat) (os : Octets) : Prop where
  length : os.length = f.form.size
  value : os.value = f.number ns

/-- All octets of a group with a value, none of one without. -/
structure MasksStars (f : Family) (vs : List (Option Nat)) (mask : Octets) : Prop where
  length : mask.length = f.form.size
  octet : ∀ i v, vs[i]? = some v → ∀ j < f.form.width,
    mask[i * f.form.width + j]? = some (if v = none then 0 else 0xFF)

structure MasksLeading (f : Family) (n : Nat) (mask : Octets) : Prop where
  length : mask.length = f.form.size
  bit : ∀ j < f.form.bits, mask.bit j = decide (j < n)

inductive Compiles (c : Content) : Matcher → Prop
  | exact {os : Octets} (length : c.length = none) (star : none ∉ c.groups)
      (value : Packs c.family (c.groups.map (·.getD 0)) os) : Compiles c (.exact os)
  | wildcard {mask os : Octets} (length : c.length = none) (star : none ∈ c.groups)
      (mask_eq : MasksStars c.family c.groups mask)
      (value : Packs c.family (c.groups.map (·.getD 0)) os) : Compiles c (.masked mask os)
  | block {n : Nat} {mask os : Octets} (length : c.length = some n)
      (mask_eq : MasksLeading c.family n mask)
      (value : Packs c.family (c.groups.map (·.getD 0)) os) : Compiles c (.masked mask os)

/-! ## Packing -/

theorem size_eq (f : Family) : f.size = f.form.size := by cases f <;> rfl

theorem bits_eq (f : Family) : f.form.bits = 8 * f.form.size := by cases f <;> rfl

theorem length_groupOctets (f : Family) (n : Nat) : (f.groupOctets n).length = f.form.width := by
  cases f <;> rfl

theorem value_groupOctets {f : Family} {n : Nat} (h : n < 256 ^ f.form.width) :
    (f.groupOctets n : Octets).value = n := by
  cases f with
  | v4 =>
    simp only [Family.form, pow_one] at h
    simp [Family.groupOctets, Octets.value, Nat.mod_eq_of_lt h]
  | v6 =>
    simp only [Family.form] at h
    simp [Family.groupOctets, Octets.value]
    omega

theorem length_groupsOctets (f : Family) (ns : List Nat) :
    (Pattern.groupsOctets f ns).length = ns.length * f.form.width := by
  unfold Pattern.groupsOctets
  rw [List.length_flatMap]
  simp [length_groupOctets]

theorem value_groupsOctets {f : Family} {ns : List Nat} (h : ∀ n ∈ ns, n < 256 ^ f.form.width) :
    (Pattern.groupsOctets f ns).value = f.number ns := by
  induction ns using List.reverseRecOn with
  | nil => rfl
  | append_singleton ns n ih =>
    have hn : n < 256 ^ f.form.width := h n (by simp)
    have hns := ih fun m hm => h m (by simp [hm])
    unfold Pattern.groupsOctets Family.number at hns ⊢
    rw [List.flatMap_append, List.flatMap_singleton, Octets.value_append, length_groupOctets,
      value_groupOctets hn, hns, List.reverse_append, List.reverse_singleton,
      List.singleton_append, Nat.ofDigits_cons]
    exact Nat.add_comm _ _

theorem packs_groupsOctets {f : Family} {ns : List Nat} (hcount : ns.length = f.form.groups)
    (hlt : ∀ n ∈ ns, n < 256 ^ f.form.width) : Packs f ns (Pattern.groupsOctets f ns) := by
  refine ⟨?_, value_groupsOctets hlt⟩
  rw [length_groupsOctets, hcount]
  rfl

/-! ## Stars -/

theorem openGroupOctets_eq (f : Family) (v : Option Nat) :
    Pattern.openGroupOctets f v = f.groupOctets (v.getD 0) := by
  cases v with
  | none => cases f <;> rfl
  | some n => rfl

theorem flatMap_openGroupOctets (f : Family) (vs : List (Option Nat)) :
    vs.flatMap (Pattern.openGroupOctets f) = Pattern.groupsOctets f (vs.map (·.getD 0)) := by
  have h : Pattern.openGroupOctets f = fun v => f.groupOctets (v.getD 0) :=
    funext (openGroupOctets_eq f)
  unfold Pattern.groupsOctets
  rw [h, List.flatMap_map]

theorem openGroupMask_eq (f : Family) (v : Option Nat) :
    Pattern.openGroupMask f v = List.replicate f.form.width (if v = none then 0 else 0xFF) := by
  cases v <;> cases f <;> rfl

theorem getElem?_flatMap_openGroupMask {f : Family} {vs : List (Option Nat)} {i j : Nat}
    {v : Option Nat} (hi : vs[i]? = some v) (hj : j < f.form.width) :
    (vs.flatMap (Pattern.openGroupMask f))[i * f.form.width + j]? =
      some (if v = none then 0 else 0xFF) := by
  induction vs generalizing i with
  | nil => simp at hi
  | cons u vs ih =>
    rw [List.flatMap_cons, openGroupMask_eq]
    cases i with
    | zero =>
      obtain rfl : u = v := by simpa using hi
      rw [Nat.zero_mul, Nat.zero_add, List.getElem?_append_left (by simpa using hj),
        List.getElem?_replicate_of_lt hj]
    | succ i =>
      rw [List.getElem?_append_right (by rw [List.length_replicate, Nat.succ_mul]; omega),
        List.length_replicate, ← ih (by simpa using hi)]
      congr 1
      rw [Nat.succ_mul]
      omega

theorem masksStars_openGroupMask {f : Family} {vs : List (Option Nat)}
    (hcount : vs.length = f.form.groups) :
    MasksStars f vs (vs.flatMap (Pattern.openGroupMask f)) := by
  refine ⟨?_, fun i v hi j hj => getElem?_flatMap_openGroupMask hi hj⟩
  simp only [List.length_flatMap, openGroupMask_eq, List.length_replicate, List.map_const',
    List.sum_replicate_nat, hcount]
  rfl

theorem masksLeading_leadingMask (f : Family) (n : Nat) :
    MasksLeading f n (leadingMask f.size n) := by
  refine ⟨?_, fun j hj => bit_leadingMask ?_⟩
  · rw [length_leadingMask, size_eq]
  · rwa [size_eq, ← bits_eq]

/-! ## Matchers -/

theorem Content.WellFormed.getD_lt {c : Content} (h : c.WellFormed) :
    ∀ n ∈ c.groups.map (·.getD 0), n < 256 ^ c.family.form.width := by
  simp only [List.mem_map]
  rintro _ ⟨v, hv, rfl⟩
  cases v with
  | none => exact Nat.pow_pos (by decide)
  | some n => exact h.lt n hv

theorem Content.WellFormed.packs {c : Content} (h : c.WellFormed) :
    Packs c.family (c.groups.map (·.getD 0))
      (Pattern.groupsOctets c.family (c.groups.map (·.getD 0))) :=
  packs_groupsOctets ((List.length_map _).trans h.count) h.getD_lt

theorem compiles_ofContent {c : Content} (h : c.WellFormed) :
    Compiles c (Pattern.ofContent c).matcher := by
  have hpacks := h.packs
  obtain ⟨f, vs, length⟩ := c
  cases length with
  | none =>
    by_cases hstar : none ∈ vs
    · rw [Pattern.ofContent_wildcard hstar]
      simp only [Pattern.matcher, flatMap_openGroupOctets]
      exact .wildcard rfl hstar (masksStars_openGroupMask h.count) hpacks
    · obtain ⟨ns, rfl⟩ := exists_map_some hstar
      rw [Pattern.ofContent_exact]
      exact .exact rfl hstar (by simpa using hpacks)
  | some n =>
    exact .block rfl (masksLeading_leadingMask f n) hpacks

/-! The description leaves no choice. -/

theorem Packs.unique {f : Family} {ns : List Nat} {a b : Octets} (ha : Packs f ns a)
    (hb : Packs f ns b) : a = b :=
  Octets.eq_of_value_eq (ha.length.trans hb.length.symm) (ha.value.trans hb.value.symm)

theorem MasksStars.unique {f : Family} {vs : List (Option Nat)} {a b : Octets}
    (hcount : vs.length = f.form.groups) (ha : MasksStars f vs a) (hb : MasksStars f vs b) :
    a = b := by
  have hwidth : 0 < f.form.width := by cases f <;> decide
  apply List.ext_getElem?
  intro k
  rcases Nat.lt_or_ge k f.form.size with hk | hk
  · have hgroup : k / f.form.width < vs.length := by
      rw [hcount, Nat.div_lt_iff_lt_mul hwidth]
      exact hk
    have hv := List.getElem?_eq_getElem hgroup
    have hj := Nat.mod_lt k hwidth
    rw [← Nat.div_add_mod' k f.form.width, ha.octet _ _ hv _ hj, hb.octet _ _ hv _ hj]
  · rw [List.getElem?_eq_none (ha.length.trans_le hk),
      List.getElem?_eq_none (hb.length.trans_le hk)]

theorem MasksLeading.unique {f : Family} {n : Nat} {a b : Octets} (ha : MasksLeading f n a)
    (hb : MasksLeading f n b) : a = b := by
  apply eq_of_bit_eq (ha.length.trans hb.length.symm)
  intro j hj
  rw [ha.length, ← bits_eq] at hj
  rw [ha.bit j hj, hb.bit j hj]

theorem Compiles.unique {c : Content} {m m' : Matcher} (hwell : c.WellFormed)
    (h : Compiles c m) (h' : Compiles c m') : m = m' := by
  cases h with
  | exact hlen hstar hvalue =>
    cases h' with
    | exact _ _ hvalue' => rw [hvalue.unique hvalue']
    | wildcard _ hstar' => exact absurd hstar' hstar
    | block hlen' => rw [hlen] at hlen'; cases hlen'
  | wildcard hlen hstar hmask hvalue =>
    cases h' with
    | exact _ hstar' => exact absurd hstar hstar'
    | wildcard _ _ hmask' hvalue' =>
      rw [hmask.unique hwell.count hmask', hvalue.unique hvalue']
    | block hlen' => rw [hlen] at hlen'; cases hlen'
  | block hlen hmask hvalue =>
    cases h' with
    | exact hlen' | wildcard hlen' => rw [hlen] at hlen'; cases hlen'
    | block hlen' hmask' hvalue' =>
      obtain rfl := Option.some.inj (hlen.symm.trans hlen')
      rw [hmask.unique hmask', hvalue.unique hvalue']

/-- The texts that are read are those that spell something, and what they spell alone settles the
pattern and its matcher. -/
theorem parse_spelled (s : String) :
    ((∃ p, Pattern.parse s = .ok p) ↔ ∃ c, Spells s.toList c) ∧
      ∀ c, Spells s.toList c → ∃ p, Pattern.parse s = .ok p ∧
        (∀ m, Compiles c m ↔ m = p.matcher) ∧
        ∀ t : String, Spells t.toList c → Pattern.parse t = .ok p := by
  refine ⟨?_, fun c hc => ?_⟩
  · simp only [parse_eq_ok_iff]
    constructor
    · rintro ⟨p, c, hc, _⟩
      exact ⟨c, hc⟩
    · rintro ⟨c, hc⟩
      exact ⟨_, c, hc, rfl⟩
  · have hparse : ∀ t : String, Spells t.toList c → Pattern.parse t = .ok (.ofContent c) :=
      fun t ht => parse_eq_ok_iff.mpr ⟨c, ht, rfl⟩
    have hcompiles := compiles_ofContent hc.wellFormed
    refine ⟨_, hparse s hc, fun m => ⟨fun hm => hm.unique hc.wellFormed hcompiles, ?_⟩, hparse⟩
    rintro rfl
    exact hcompiles

theorem parse_spelled_wildcard :
    Spells "10.*.0.07".toList ⟨.v4, [some 10, none, some 0, some 7], none⟩ ∧
      ∃ p, Pattern.parse "10.*.0.07" = .ok p ∧
        Compiles ⟨.v4, [some 10, none, some 0, some 7], none⟩ p.matcher := by
  have hgroup : ∀ g n, Family.v4.isGroup g = true → Pattern.readGroup .v4 g = .ok n →
      SpellsOpenGroup .v4 g (some n) := fun g n hg hn =>
    .number ((spellsGroup_iff .v4 g n).mpr ⟨hg, hn⟩)
  have hspells : Spells "10.*.0.07".toList ⟨.v4, [some 10, none, some 0, some 7], none⟩ :=
    @Spells.address .v4 [['1', '0'], ['*'], ['0'], ['0', '7']] _ rfl
      (.cons (hgroup _ _ rfl rfl) (.cons .star (.cons (hgroup _ _ rfl rfl)
        (.cons (hgroup _ _ rfl rfl) .nil))))
  obtain ⟨p, hp, hcompiles, _⟩ := (parse_spelled "10.*.0.07").2 _ hspells
  exact ⟨hspells, p, hp, (hcompiles _).mpr rfl⟩

/-! Leading zeros and the case of letters are not read. -/

example : Pattern.parse "010.*.00.7" = Pattern.parse "10.*.0.07" := rfl

example : Pattern.parse "FE80:0:0:0:0:0:0:00aB" = Pattern.parse "fe80:0:0:0:0:0:0:Ab" := rfl

end PeerAccess
