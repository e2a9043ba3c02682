import PeerAccess.Proofs.Compiling

/-!
# Blocks

A block of prefix length `n` is compared octet by octet under a mask. As numbers that is division:
the accepted addresses have the quotient of the written one, and there are none when the written one
leaves a remainder.
-/

namespace PeerAccess

open Text

/-- How many addresses share a prefix of `n` bits. -/
def Family.blockSize (f : Family) (n : Nat) : Nat := 2 ^ (f.form.bits - n)

theorem blockSize_pos (f : Family) (n : Nat) : 0 < f.blockSize n := by
  unfold Family.blockSize
  positivity

theorem div_eq_div_iff_mem {a d x : Nat} (hd : 0 < d) (ha : a % d = 0) :
    x / d = a / d ↔ a ≤ x ∧ x < a + d := by
  obtain ⟨q, rfl⟩ := Nat.dvd_of_mod_eq_zero ha
  rw [Nat.mul_div_cancel_left q hd, Nat.div_eq_iff hd, Nat.mul_comm q d]
  omega

section
variable {cs : List Char} {f : Family} {ns : List Nat} {n : Nat}

theorem packs_of_block (h : Spells cs ⟨f, ns.map some, some n⟩) :
    Packs f ns (Pattern.groupsOctets f ns) := by
  simpa using h.wellFormed.packs

theorem number_lt (h : Spells cs ⟨f, ns.map some, some n⟩) : f.number ns < 2 ^ f.form.bits := by
  have hpacks := packs_of_block h
  rw [← hpacks.value, bits_eq, ← hpacks.length]
  exact Octets.value_lt_two_pow _

theorem block_accepts_iff (h : Spells cs ⟨f, ns.map some, some n⟩) (x : Octets) :
    (Pattern.block f ns n).matcher.accepts x = true ↔
      x.length = f.form.size ∧ x.value / f.blockSize n = f.number ns / f.blockSize n ∧
        f.number ns % f.blockSize n = 0 := by
  have hpacks := packs_of_block h
  have hle : n ≤ 8 * f.form.size := by
    rw [← bits_eq]
    exact h.wellFormed.length_le n rfl
  have hlen : (Pattern.block f ns n).matcher.accepts x = true → x.length = f.form.size := by
    intro hx
    rw [Matcher.length_eq_size_of_accepts hx]
    simp [Pattern.matcher, Matcher.size, size_eq]
  rw [← and_iff_right_of_imp hlen]
  refine and_congr_right fun hx => ?_
  rw [Pattern.matcher, size_eq, accepts_leadingMask_iff hle hpacks.length hx, hpacks.value,
    ← bits_eq]
  rfl

/-- Without host bits a block is a range of addresses. -/
theorem block_accepts_iff_mem (h : Spells cs ⟨f, ns.map some, some n⟩)
    (hzero : f.number ns % f.blockSize n = 0) (x : Octets) :
    (Pattern.block f ns n).matcher.accepts x = true ↔
      x.length = f.form.size ∧ f.number ns ≤ x.value ∧ x.value < f.number ns + f.blockSize n := by
  rw [block_accepts_iff h, div_eq_div_iff_mem (blockSize_pos f n) hzero]
  simp [hzero]

theorem block_end_le (h : Spells cs ⟨f, ns.map some, some n⟩)
    (hzero : f.number ns % f.blockSize n = 0) :
    f.number ns + f.blockSize n ≤ 256 ^ f.form.size := by
  have hlt := number_lt h
  have hsplit : 2 ^ f.form.bits = f.blockSize n * 2 ^ n := by
    unfold Family.blockSize
    rw [← pow_add, Nat.sub_add_cancel (h.wellFormed.length_le n rfl)]
  have hbytes : 2 ^ f.form.bits = 256 ^ f.form.size := by
    rw [bits_eq, pow_mul]
    rfl
  obtain ⟨q, hq⟩ := Nat.dvd_of_mod_eq_zero hzero
  rw [hsplit, hq] at hlt
  have hq' : q < 2 ^ n := Nat.lt_of_mul_lt_mul_left hlt
  rw [← hbytes, hsplit, hq]
  calc f.blockSize n * q + f.blockSize n = f.blockSize n * (q + 1) := (Nat.mul_succ _ _).symm
    _ ≤ f.blockSize n * 2 ^ n := Nat.mul_le_mul_left _ hq'

theorem ncard_block (h : Spells cs ⟨f, ns.map some, some n⟩)
    (hzero : f.number ns % f.blockSize n = 0) :
    {x | (Pattern.block f ns n).matcher.accepts x = true}.ncard = f.blockSize n := by
  simp only [block_accepts_iff_mem h hzero]
  rw [Octets.ncard_value_mem_Ico (block_end_le h hzero), Nat.add_sub_cancel_left]

theorem block_accepts_eq_false (h : Spells cs ⟨f, ns.map some, some n⟩)
    (hbits : f.number ns % f.blockSize n ≠ 0) (x : Octets) :
    (Pattern.block f ns n).matcher.accepts x = false := by
  rw [Bool.eq_false_iff, Ne, block_accepts_iff h]
  exact fun hx => hbits hx.2.2

end

theorem exists_block_of_slash {cs : List Char} {c : Content} (h : Spells cs c) (hslash : '/' ∈ cs) :
    ∃ (f : Family) (ns : List Nat) (n : Nat), c = ⟨f, ns.map some, some n⟩ := by
  obtain ⟨n, hn⟩ := h.slash_mem_iff.mp hslash
  cases h with
  | address => cases hn
  | @block f _ ns _ n => exact ⟨f, ns, n, rfl⟩

/-- A text with a slash accepts the addresses of its network, and none if the written address has a
bit past the prefix. -/
theorem accepts_iff_network {s : String} {p : Pattern} (h : Pattern.parse s = .ok p)
    (hslash : '/' ∈ s.toList) :
    (∃ (f : Family) (ns : List Nat) (n : Nat), Spells s.toList ⟨f, ns.map some, some n⟩) ∧
      ∀ (f : Family) (ns : List Nat) (n : Nat), Spells s.toList ⟨f, ns.map some, some n⟩ →
        (∀ x : Octets, p.matcher.accepts x = true ↔
          8 * x.length = f.form.bits ∧
            x.value / 2 ^ (f.form.bits - n) = f.number ns / 2 ^ (f.form.bits - n) ∧
            f.number ns % 2 ^ (f.form.bits - n) = 0) ∧
        (f.number ns % 2 ^ (f.form.bits - n) = 0 →
          (∀ x : Octets, p.matcher.accepts x = true ↔
            8 * x.length = f.form.bits ∧
              f.number ns ≤ x.value ∧ x.value < f.number ns + 2 ^ (f.form.bits - n)) ∧
          {x | p.matcher.accepts x = true}.ncard = 2 ^ (f.form.bits - n)) ∧
        (f.number ns % 2 ^ (f.form.bits - n) ≠ 0 → ∀ x, p.matcher.accepts x = false) := by
  obtain ⟨c, hc, rfl⟩ := parse_eq_ok_iff.mp h
  constructor
  · obtain ⟨f, ns, n, rfl⟩ := exists_block_of_slash hc hslash
    exact ⟨f, ns, n, hc⟩
  · intro f ns n hspells
    have hp : Pattern.ofContent c = .block f ns n := by
      have hparse := parse_eq_ok_iff.mpr ⟨_, hspells, Pattern.ofContent_block f ns n⟩
      exact Except.ok.inj (h.symm.trans hparse)
    have hlen : ∀ x : Octets, 8 * x.length = f.form.bits ↔ x.length = f.form.size := by
      intro x
      rw [bits_eq]
      omega
    simp only [hp, hlen]
    exact ⟨block_accepts_iff hspells,
      fun hzero => ⟨block_accepts_iff_mem hspells hzero, ncard_block hspells hzero⟩,
      block_accepts_eq_false hspells⟩

theorem network_of_padded_length :
    Pattern.parse "10.0.0.0/08" = .ok (.block .v4 [10, 0, 0, 0] 8) ∧ '/' ∈ "10.0.0.0/08".toList ∧
      {x | (Pattern.block .v4 [10, 0, 0, 0] 8).matcher.accepts x = true}.ncard = 2 ^ 24 := by
  have hgroup : ∀ g n, Family.v4.isGroup g = true → Pattern.readGroup .v4 g = .ok n →
      SpellsGroup .v4 g n := fun g n hg hn => (spellsGroup_iff .v4 g n).mpr ⟨hg, hn⟩
  have hspells : Spells "10.0.0.0/08".toList ⟨.v4, [10, 0, 0, 0].map some, some 8⟩ :=
    @Spells.block .v4 [['1', '0'], ['0'], ['0'], ['0']] _ ['0', '8'] 8 rfl
      (.cons (hgroup _ _ rfl rfl) (.cons (hgroup _ _ rfl rfl) (.cons (hgroup _ _ rfl rfl)
        (.cons (hgroup _ _ rfl rfl) .nil))))
      (numeral_ten_iff.mpr ⟨rfl, rfl⟩) (by decide)
  have hparse : Pattern.parse "10.0.0.0/08" = .ok (.block .v4 [10, 0, 0, 0] 8) := rfl
  have hslash : '/' ∈ "10.0.0.0/08".toList := by decide
  obtain ⟨_, hnetwork⟩ := accepts_iff_network hparse hslash
  exact ⟨hparse, hslash, ((hnetwork _ _ _ hspells).2.1 rfl).2⟩

end PeerAccess
