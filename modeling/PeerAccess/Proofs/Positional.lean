import PeerAccess.Address.Basic
import PeerAccess.Text.Numeral
import Mathlib.Data.List.Forall2
import Mathlib.Data.Nat.Digits.Lemmas
import Mathlib.Data.Set.Card
import Mathlib.Order.Interval.Finset.Nat
import Mathlib.Tactic.IntervalCases

/-!
# Positional notation

Digits of a text and octets of an address are both places of a number, the highest first. A
numeral is described here digit by digit, and octets of one length are told apart by their number.
-/

namespace PeerAccess

/-- A left fold that makes room for one more place is `Nat.ofDigits` of the places backwards. -/
theorem foldl_places {α : Type} (base : Nat) (place : α → Nat) (l : List α) :
    l.foldl (fun n a => base * n + place a) 0 = Nat.ofDigits base (l.map place).reverse := by
  induction l using List.reverseRecOn with
  | nil => rfl
  | append_singleton l a ih =>
    rw [List.foldl_append, ih, List.map_append, List.reverse_append]
    simp [Nat.ofDigits_cons, Nat.add_comm]

namespace Text

/-! ## Numerals -/

/-- `c` is the digit `d` in `base`. Digits above nine are letters of either case. -/
def DigitIn (base : Nat) (c : Char) (d : Nat) : Prop :=
  d < base ∧ (c = d.digitChar ∨ c = d.digitChar.toUpper)

/-- `cs` writes `n` in `base` with at least `least` and at most `most` digits. -/
def Numeral (base least most : Nat) (cs : List Char) (n : Nat) : Prop :=
  (least ≤ cs.length ∧ cs.length ≤ most) ∧
    ∃ ds, List.Forall₂ (DigitIn base) cs ds ∧ n = Nat.ofDigits base ds.reverse

theorem valueIn_eq_ofDigits (base : Nat) (cs : List Char) :
    valueIn base cs = Nat.ofDigits base (cs.map digitValue).reverse :=
  foldl_places base digitValue cs

theorem isHexDigit_of_digitIn {c : Char} {d : Nat} (h : DigitIn 16 c d) :
    isHexDigit c = true ∧ digitValue c = d := by
  obtain ⟨hd, hc⟩ := h
  rcases hc with rfl | rfl <;> interval_cases d <;> decide

theorem digitIn_of_isHexDigit {c : Char} (h : isHexDigit c = true) :
    DigitIn 16 c (digitValue c) := by
  have hc : c = Char.ofNat c.toNat := (Char.ofNat_toNat c).symm
  have hn : (48 ≤ c.toNat ∧ c.toNat ≤ 57) ∨ (97 ≤ c.toNat ∧ c.toNat ≤ 102) ∨
      (65 ≤ c.toNat ∧ c.toNat ≤ 70) := by
    simpa [isHexDigit, Char.isDigit, Char.le_def, UInt32.le_iff_toNat_le, or_assoc] using h
  generalize c.toNat = n at hc hn
  subst hc
  rcases hn with ⟨_, _⟩ | ⟨_, _⟩ | ⟨_, _⟩ <;> interval_cases n <;> unfold DigitIn <;> decide

theorem digitIn_sixteen_iff {c : Char} {d : Nat} :
    DigitIn 16 c d ↔ isHexDigit c = true ∧ digitValue c = d := by
  constructor
  · exact isHexDigit_of_digitIn
  · rintro ⟨h, rfl⟩
    exact digitIn_of_isHexDigit h

theorem digitIn_ten_iff {c : Char} {d : Nat} :
    DigitIn 10 c d ↔ isDigit c = true ∧ digitValue c = d := by
  constructor
  · rintro ⟨hd, hc⟩
    rcases hc with rfl | rfl <;> interval_cases d <;> decide
  · rintro ⟨h, rfl⟩
    have hx : isHexDigit c = true := by
      rw [isDigit] at h
      simp [isHexDigit, h]
    refine ⟨?_, (digitIn_of_isHexDigit hx).2⟩
    have : c.toNat ≤ 57 := by
      simp only [isDigit, Char.isDigit, Bool.and_eq_true, decide_eq_true_eq] at h
      simpa [UInt32.le_iff_toNat_le] using h.2
    rw [isDigit] at h
    simp only [digitValue, h, if_true]
    change c.toNat - 48 < 10
    omega

/-- A class of digits and their values amount to `DigitIn`, so numerals are what `isNumeral` takes
and `valueIn` reads. -/
theorem numeral_iff {digit : Char → Bool} {base : Nat}
    (hdigit : ∀ {c d}, DigitIn base c d ↔ digit c = true ∧ digitValue c = d)
    {least most n : Nat} {cs : List Char} :
    Numeral base least most cs n ↔ isNumeral digit least most cs = true ∧ valueIn base cs = n := by
  have hds : ∀ ds, List.Forall₂ (DigitIn base) cs ds ↔
      (∀ c ∈ cs, digit c = true) ∧ ds = cs.map digitValue := by
    intro ds
    induction cs generalizing ds with
    | nil => simp
    | cons c cs ih => cases ds <;> simp [ih, hdigit]; grind
  simp only [Numeral, hds, isNumeral, Bool.and_eq_true, decide_eq_true_eq, List.all_eq_true,
    valueIn_eq_ofDigits]
  constructor
  · rintro ⟨hlen, ds, ⟨hall, rfl⟩, rfl⟩
    exact ⟨⟨hlen, hall⟩, rfl⟩
  · rintro ⟨⟨hlen, hall⟩, rfl⟩
    exact ⟨hlen, _, ⟨hall, rfl⟩, rfl⟩

theorem numeral_ten_iff {least most n : Nat} {cs : List Char} :
    Numeral 10 least most cs n ↔ isNumeral isDigit least most cs = true ∧ decimal cs = n :=
  numeral_iff digitIn_ten_iff

theorem numeral_sixteen_iff {least most n : Nat} {cs : List Char} :
    Numeral 16 least most cs n ↔ isNumeral isHexDigit least most cs = true ∧ hexadecimal cs = n :=
  numeral_iff digitIn_sixteen_iff

theorem Numeral.lt_pow {base least most n : Nat} {cs : List Char} (hbase : 1 < base)
    (h : Numeral base least most cs n) : n < base ^ most := by
  obtain ⟨⟨_, hmost⟩, ds, hds, rfl⟩ := h
  have hlt : ∀ d ∈ ds.reverse, d < base := by
    intro d hd
    obtain ⟨i, hi, rfl⟩ := List.getElem_of_mem (List.mem_reverse.mp hd)
    exact (hds.get (by rw [hds.length_eq]; exact hi) hi).1
  calc Nat.ofDigits base ds.reverse < base ^ ds.reverse.length :=
        Nat.ofDigits_lt_base_pow_length hbase hlt
    _ ≤ base ^ most := by
        apply Nat.pow_le_pow_right (by omega)
        rw [List.length_reverse, ← hds.length_eq]
        exact hmost

end Text

namespace Octets

/-! ## Octets as numbers -/

theorem value_eq_ofDigits (os : Octets) :
    os.value = Nat.ofDigits 256 (os.map UInt8.toNat).reverse :=
  foldl_places 256 UInt8.toNat os

@[simp] theorem value_nil : value [] = 0 := rfl

theorem value_append (a b : Octets) : value (a ++ b) = 256 ^ b.length * a.value + b.value := by
  simp only [value_eq_ofDigits, List.map_append, List.reverse_append, Nat.ofDigits_append,
    List.length_reverse, List.length_map]
  omega

theorem value_cons (o : UInt8) (os : Octets) :
    value (o :: os) = 256 ^ os.length * o.toNat + os.value := by
  rw [← List.singleton_append, value_append]
  simp [value]

theorem places_lt (os : Octets) : ∀ d ∈ (os.map UInt8.toNat).reverse, d < 256 := by
  simp only [List.mem_reverse, List.mem_map]
  rintro d ⟨o, _, rfl⟩
  exact o.toNat_lt

theorem value_lt (os : Octets) : os.value < 256 ^ os.length := by
  rw [value_eq_ofDigits]
  simpa using Nat.ofDigits_lt_base_pow_length (by omega : 1 < 256) os.places_lt

theorem value_lt_two_pow (os : Octets) : os.value < 2 ^ (8 * os.length) := by
  rw [pow_mul]
  exact os.value_lt

theorem eq_of_value_eq {a b : Octets} (hlen : a.length = b.length) (h : a.value = b.value) :
    a = b := by
  rw [value_eq_ofDigits, value_eq_ofDigits] at h
  have hmap := Nat.ofDigits_inj_of_len_eq (by omega : 1 < 256) (by simp [hlen]) a.places_lt
    b.places_lt h
  exact List.map_injective_iff.mpr (fun _ _ => UInt8.toNat_inj.mp) (List.reverse_injective hmap)

theorem exists_value_eq (size n : Nat) (h : n < 256 ^ size) :
    ∃ os : Octets, os.length = size ∧ os.value = n := by
  induction size generalizing n with
  | zero => exact ⟨[], rfl, by simp at h; simp [h]⟩
  | succ size ih =>
    have hpos : 0 < 256 ^ size := by positivity
    obtain ⟨os, hlen, hval⟩ := ih (n % 256 ^ size) (Nat.mod_lt _ hpos)
    have hhigh : n / 256 ^ size < 256 := by
      rw [Nat.div_lt_iff_lt_mul hpos, Nat.mul_comm, ← Nat.pow_succ]
      exact h
    refine ⟨UInt8.ofNat (n / 256 ^ size) :: os, by simp [hlen], ?_⟩
    rw [value_cons, hlen, hval, UInt8.toNat_ofNat_of_lt' hhigh]
    exact Nat.div_add_mod n _

theorem ncard_value_mem_Ico {size lo hi : Nat} (h : hi ≤ 256 ^ size) :
    {x : Octets | x.length = size ∧ lo ≤ x.value ∧ x.value < hi}.ncard = hi - lo := by
  have himage : value '' {x : Octets | x.length = size ∧ lo ≤ x.value ∧ x.value < hi} =
      Finset.Ico lo hi := by
    ext n
    simp only [Set.mem_image, Set.mem_ofPred_eq, Finset.coe_Ico, Set.mem_Ico]
    constructor
    · rintro ⟨x, ⟨_, hx⟩, rfl⟩
      exact hx
    · intro hn
      obtain ⟨x, hlen, rfl⟩ := exists_value_eq size n (by omega)
      exact ⟨x, ⟨hlen, hn⟩, rfl⟩
  have hinj : Set.InjOn value {x : Octets | x.length = size ∧ lo ≤ x.value ∧ x.value < hi} := by
    rintro x ⟨hx, _⟩ y ⟨hy, _⟩ hxy
    exact eq_of_value_eq (hx.trans hy.symm) hxy
  rw [← hinj.ncard_image, himage, Set.ncard_coe_finset, Nat.card_Ico]

end Octets

end PeerAccess
