import PeerAccess.Proofs.Positional

/-!
# Written numerals

Numbers are printed with as few digits as they need. Such a numeral reads back as its number, begins
with a zero only where it is one, and means the same with zeros in front.
-/

namespace PeerAccess.Text

/-! ## Digits -/

theorem exists_digits_toDigits {base : Nat} (hbase : 1 < base) (n : Nat) :
    ∃ ds, List.Forall₂ (DigitIn base) (Nat.toDigits base n) ds ∧
      n = Nat.ofDigits base ds.reverse := by
  induction n using Nat.strongRecOn with
  | ind n ih =>
    rcases Nat.lt_or_ge n base with hlt | hge
    · rw [Nat.toDigits_of_lt_base hlt]
      exact ⟨[n], .cons ⟨hlt, .inl rfl⟩ .nil, by simp⟩
    · obtain ⟨ds, hds, hn⟩ := ih (n / base) (Nat.div_lt_self (by omega) hbase)
      have hlast : DigitIn base (n % base).digitChar (n % base) :=
        ⟨Nat.mod_lt n (by omega), .inl rfl⟩
      rw [Nat.toDigits_of_base_le hbase hge]
      refine ⟨ds ++ [n % base], List.rel_append hds (.cons hlast .nil), ?_⟩
      rw [List.reverse_append, List.reverse_singleton, List.singleton_append, Nat.ofDigits_cons,
        ← hn]
      exact (Nat.mod_add_div n base).symm

theorem numeral_toDigits {base most n : Nat} (hbase : 1 < base) (hmost : 0 < most)
    (h : n < base ^ most) : Numeral base 1 most (Nat.toDigits base n) n :=
  ⟨⟨Nat.length_toDigits_pos, (Nat.length_toDigits_le_iff hbase hmost).mpr h⟩,
    exists_digits_toDigits hbase n⟩

/-! ## Decimal -/

theorem numeral_writeDecimal {most n : Nat} (hmost : 0 < most) (h : n < 10 ^ most) :
    isNumeral isDigit 1 most (writeDecimal n) = true ∧ decimal (writeDecimal n) = n :=
  numeral_ten_iff.mp (numeral_toDigits (by omega) hmost h)

theorem decimal_writeDecimal (n : Nat) : decimal (writeDecimal n) = n :=
  (numeral_writeDecimal (Nat.succ_pos n)
    ((Nat.lt_succ_self n).trans (Nat.lt_pow_self (by omega)))).2

theorem isDigit_of_mem_writeDecimal {n : Nat} {c : Char} (h : c ∈ writeDecimal n) :
    isDigit c = true :=
  Nat.isDigit_of_mem_toDigits (by omega) (by omega) h

theorem writeDecimal_ne_nil (n : Nat) : writeDecimal n ≠ [] := Nat.toDigits_ne_nil

theorem boundedDecimal?_writeDecimal {bound n : Nat} (h : n < bound) :
    boundedDecimal? bound (writeDecimal n) = some n := by
  have hdigits : (writeDecimal n).all isDigit = true := by
    rw [List.all_eq_true]
    exact fun c hc => isDigit_of_mem_writeDecimal hc
  unfold boundedDecimal?
  rw [decimal_writeDecimal, if_pos ⟨writeDecimal_ne_nil n, hdigits, h⟩]

theorem head?_writeDecimal {n : Nat} (h : n ≠ 0) : (writeDecimal n).head? ≠ some '0' := by
  unfold writeDecimal
  induction n using Nat.strongRecOn with
  | ind n ih =>
    rcases Nat.lt_or_ge n 10 with hlt | hge
    · rw [Nat.toDigits_of_lt_base hlt]
      interval_cases n <;> first | exact absurd rfl h | decide
    · rw [Nat.toDigits_of_base_le (by omega) hge, List.head?_append_of_ne_nil _ Nat.toDigits_ne_nil]
      exact ih (n / 10) (by omega) (by omega)

/-! ## Hexadecimal -/

theorem numeral_writeHexadecimal {most n : Nat} (hmost : 0 < most) (h : n < 16 ^ most) :
    isNumeral isHexDigit 1 most (writeHexadecimal n) = true ∧
      hexadecimal (writeHexadecimal n) = n :=
  numeral_sixteen_iff.mp (numeral_toDigits (by omega) hmost h)

theorem hexadecimal_zeros (k : Nat) (cs : List Char) :
    hexadecimal (List.replicate k '0' ++ cs) = hexadecimal cs := by
  unfold hexadecimal valueIn
  induction k with
  | zero => rfl
  | succ k ih =>
    rw [List.replicate_succ, List.cons_append, List.foldl_cons]
    exact ih

end PeerAccess.Text
