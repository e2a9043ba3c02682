import PeerAccess.Matcher
import PeerAccess.Proofs.Positional

/-!
# Masks

A mask of leading ones, bit by bit, and what comparing octets under it says about the numbers that
the octets spell: equal quotients, and no remainder in the value compared with.
-/

namespace PeerAccess

/-- Bit `j`, counted from the highest bit of the first octet. -/
def Octets.bit (os : Octets) (j : Nat) : Bool := (os.getD (j / 8) 0).toNat.testBit (7 - j % 8)

/-! ## One octet -/

theorem toNat_leadingOctet (n : Nat) : (leadingOctet n).toNat = 2 ^ 8 - (2 ^ (8 - n) - 1 + 1) := by
  have hpos : 0 < 2 ^ (8 - n) := by positivity
  unfold leadingOctet
  rw [Nat.shiftLeft_eq, one_mul, Nat.sub_add_cancel hpos,
    UInt8.toNat_ofNat_of_lt' (by simp [UInt8.size])]
  rfl

theorem testBit_leadingOctet (n j : Nat) :
    (leadingOctet n).toNat.testBit j = decide (8 - n ≤ j ∧ j < 8) := by
  have hlt : 2 ^ (8 - n) - 1 < 2 ^ 8 := by
    have : 2 ^ (8 - n) ≤ 2 ^ 8 := Nat.pow_le_pow_right (by omega) (by omega)
    omega
  rw [toNat_leadingOctet, Nat.testBit_two_pow_sub_succ hlt, Nat.testBit_two_pow_sub_one]
  grind

theorem toNat_and_leadingOctet (n : Nat) (a : UInt8) :
    (a &&& leadingOctet n).toNat = a.toNat / 2 ^ (8 - n) * 2 ^ (8 - n) := by
  apply Nat.eq_of_testBit_eq
  intro j
  rw [UInt8.toNat_and, Nat.testBit_and, testBit_leadingOctet, Nat.testBit_mul_two_pow,
    Nat.testBit_div_two_pow]
  by_cases hj : 8 - n ≤ j
  · have hhigh : 8 ≤ j → a.toNat.testBit j = false := fun h8 =>
      Nat.testBit_lt_two_pow (lt_of_lt_of_le a.toNat_lt (Nat.pow_le_pow_right (by omega) h8))
    rw [Nat.sub_add_cancel hj]
    by_cases h8 : 8 ≤ j
    · simp [hhigh h8]
    · simp [hj, Nat.lt_of_not_le h8]
  · simp [hj]

theorem and_leadingOctet_eq_iff (n : Nat) (a v : UInt8) :
    a &&& leadingOctet n = v ↔
      a.toNat / 2 ^ (8 - n) = v.toNat / 2 ^ (8 - n) ∧ v.toNat % 2 ^ (8 - n) = 0 := by
  have hpos : 0 < 2 ^ (8 - n) := by positivity
  rw [← UInt8.toNat_inj, toNat_and_leadingOctet]
  constructor
  · intro h
    rw [← h]
    exact ⟨(Nat.mul_div_cancel _ hpos).symm, Nat.mul_mod_left _ _⟩
  · rintro ⟨hdiv, hmod⟩
    rw [hdiv, Nat.div_mul_cancel (Nat.dvd_of_mod_eq_zero hmod)]

/-! ## All octets -/

theorem bit_cons (o : UInt8) (os : Octets) (j : Nat) :
    Octets.bit (o :: os) j = if j < 8 then o.toNat.testBit (7 - j) else os.bit (j - 8) := by
  unfold Octets.bit
  split
  · rw [Nat.div_eq_of_lt ‹_›, Nat.mod_eq_of_lt ‹_›]
    rfl
  · obtain ⟨k, rfl⟩ : ∃ k, j = k + 8 := ⟨j - 8, by omega⟩
    simp

theorem bit_leadingMask {size n j : Nat} (h : j < 8 * size) :
    (leadingMask size n).bit j = decide (j < n) := by
  induction size generalizing n j with
  | zero => omega
  | succ size ih =>
    unfold leadingMask
    rw [bit_cons]
    split
    · rw [testBit_leadingOctet]
      grind
    · rw [ih (by omega)]
      grind

theorem eq_of_bit_eq {a b : Octets} (hlen : a.length = b.length)
    (h : ∀ j < 8 * a.length, a.bit j = b.bit j) : a = b := by
  induction a generalizing b with
  | nil => exact (List.eq_nil_of_length_eq_zero hlen.symm).symm
  | cons o os ih =>
    obtain ⟨o', os', rfl⟩ := List.exists_cons_of_length_eq_add_one hlen.symm
    simp only [List.length_cons, Nat.add_right_cancel_iff] at hlen h
    have hhead : o = o' := by
      rw [← UInt8.toNat_inj]
      apply Nat.eq_of_testBit_eq
      intro i
      rcases Nat.lt_or_ge i 8 with hi | hi
      · have hj := h (7 - i) (by omega)
        rwa [bit_cons, bit_cons, if_pos (by omega), if_pos (by omega),
          Nat.sub_sub_self (by omega)] at hj
      · have hhigh : ∀ u : UInt8, u.toNat.testBit i = false := fun u =>
          Nat.testBit_lt_two_pow (lt_of_lt_of_le u.toNat_lt (Nat.pow_le_pow_right (by omega) hi))
        rw [hhigh, hhigh]
    have htail : os = os' := by
      apply ih hlen
      intro j hj
      have hnext := h (j + 8) (by omega)
      rwa [bit_cons, bit_cons, if_neg (by omega), if_neg (by omega), Nat.add_sub_cancel] at hnext
    rw [hhead, htail]

theorem accepts_masked_cons (m v a : UInt8) (ms vs x : Octets) :
    (Matcher.masked (m :: ms) (v :: vs)).accepts (a :: x) = true ↔
      a &&& m = v ∧ (Matcher.masked ms vs).accepts x = true := by
  simp only [Matcher.accepts, List.length_cons, List.zip_cons_cons, List.all_cons, Bool.and_eq_true,
    beq_iff_eq, Nat.add_right_cancel_iff]
  tauto

/-! Dividing by a power of two either leaves the first octet whole or cuts it. -/

section
variable {size m : Nat} (o : UInt8) {os : Octets} (hlen : os.length = size)
include hlen

theorem value_cons_eq (h : m ≤ 8 * size) :
    Octets.value (o :: os) = 2 ^ m * (2 ^ (8 * size - m) * o.toNat) + os.value := by
  rw [Octets.value_cons, ← Nat.mul_assoc, ← pow_add, Nat.add_sub_cancel' h, pow_mul, hlen]
  norm_num

theorem value_cons_div_of_le (h : m ≤ 8 * size) :
    Octets.value (o :: os) / 2 ^ m = 2 ^ (8 * size - m) * o.toNat + os.value / 2 ^ m := by
  rw [value_cons_eq o hlen h, Nat.mul_add_div (by positivity)]

theorem value_cons_mod_of_le (h : m ≤ 8 * size) :
    Octets.value (o :: os) % 2 ^ m = os.value % 2 ^ m := by
  rw [value_cons_eq o hlen h, Nat.mul_add_mod]

theorem value_div_lt (h : m ≤ 8 * size) : os.value / 2 ^ m < 2 ^ (8 * size - m) := by
  rw [Nat.div_lt_iff_lt_mul (by positivity), ← pow_add, Nat.sub_add_cancel h, ← hlen]
  exact os.value_lt_two_pow

theorem value_cons_div (k : Nat) :
    Octets.value (o :: os) / 2 ^ (8 * size + k) = o.toNat / 2 ^ k := by
  have hzero := value_div_lt hlen (le_refl (8 * size))
  rw [pow_add, ← Nat.div_div_eq_div_mul, value_cons_div_of_le o hlen (le_refl _)]
  simp only [Nat.sub_self, pow_zero, Nat.lt_one_iff] at hzero ⊢
  rw [hzero, one_mul, Nat.add_zero]

theorem value_cons_mod (k : Nat) :
    Octets.value (o :: os) % 2 ^ (8 * size + k) =
      os.value + 2 ^ (8 * size) * (o.toNat % 2 ^ k) := by
  have hdiv := value_cons_div o hlen 0
  have hlt : os.value < 2 ^ (8 * size) := hlen ▸ os.value_lt_two_pow
  rw [Nat.add_zero, pow_zero, Nat.div_one] at hdiv
  rw [pow_add, Nat.mod_mul, hdiv, value_cons_mod_of_le o hlen (le_refl _), Nat.mod_eq_of_lt hlt]

end

theorem places_eq_iff {c a b p q : Nat} (hp : p < c) (hq : q < c) :
    c * a + p = c * b + q ↔ a = b ∧ p = q := by
  constructor
  · intro h
    have hdiv := congrArg (· / c) h
    have hmod := congrArg (· % c) h
    simp only [Nat.mul_add_div (by omega : c > 0), Nat.div_eq_of_lt hp, Nat.div_eq_of_lt hq,
      Nat.mul_add_mod, Nat.mod_eq_of_lt hp, Nat.mod_eq_of_lt hq] at hdiv hmod
    exact ⟨hdiv, hmod⟩
  · rintro ⟨rfl, rfl⟩
    rfl

/-- What a mask of `n` leading ones compares: the quotients by the power of two of the bits that
it leaves out. The value has to be a multiple of it, or nothing passes. -/
theorem accepts_leadingMask_iff {size n : Nat} {v x : Octets} (hn : n ≤ 8 * size)
    (hv : v.length = size) (hx : x.length = size) :
    (Matcher.masked (leadingMask size n) v).accepts x = true ↔
      x.value / 2 ^ (8 * size - n) = v.value / 2 ^ (8 * size - n) ∧
        v.value % 2 ^ (8 * size - n) = 0 := by
  induction size generalizing n v x with
  | zero =>
    obtain rfl := List.eq_nil_of_length_eq_zero hv
    obtain rfl := List.eq_nil_of_length_eq_zero hx
    simp [Matcher.accepts, leadingMask, Octets.value]
  | succ size ih =>
    obtain ⟨b, vs, rfl⟩ := List.exists_cons_of_length_eq_add_one hv
    obtain ⟨a, xs, rfl⟩ := List.exists_cons_of_length_eq_add_one hx
    simp only [List.length_cons, Nat.add_right_cancel_iff] at hv hx
    unfold leadingMask
    rw [accepts_masked_cons, and_leadingOctet_eq_iff, ih (by omega) hv hx]
    rcases Nat.lt_or_ge n 8 with h8 | h8
    · -- The prefix ends in the first octet, and all others have to be zero.
      have hX : Octets.value xs < 2 ^ (8 * size) := hx ▸ Octets.value_lt_two_pow xs
      have hV : Octets.value vs < 2 ^ (8 * size) := hv ▸ Octets.value_lt_two_pow vs
      have hbits : 8 * (size + 1) - n = 8 * size + (8 - n) := by omega
      rw [hbits, value_cons_div a hx, value_cons_div b hv, value_cons_mod b hv,
        Nat.sub_eq_zero_of_le h8.le, Nat.sub_zero, Nat.div_eq_of_lt hX, Nat.div_eq_of_lt hV,
        Nat.mod_eq_of_lt hV]
      simp only [Nat.add_eq_zero_iff, Nat.mul_eq_zero, Nat.pow_eq_zero]
      tauto
    · -- The prefix takes in the first octet and goes on.
      have hbits : 8 * (size + 1) - n = 8 * size - (n - 8) := by omega
      have hle : 8 * size - (n - 8) ≤ 8 * size := Nat.sub_le _ _
      rw [hbits, value_cons_div_of_le a hx hle, value_cons_div_of_le b hv hle,
        value_cons_mod_of_le b hv hle,
        places_eq_iff (value_div_lt hx hle) (value_div_lt hv hle), Nat.sub_eq_zero_of_le h8]
      simp only [pow_zero, Nat.div_one, Nat.mod_one, and_true, and_assoc]

end PeerAccess
