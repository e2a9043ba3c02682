import PeerAccess.Json.Printer
import PeerAccess.Json.Reader
import PeerAccess.Proofs.WrittenNumerals

/-!
# Printed JSON

A printed value reads back as itself, whatever follows it. Strings may hold any points, halves of
surrogate pairs among them. Values with numbers are left out: a number is printed as it was
written, and no setting has one.
-/

namespace PeerAccess.Json

open Text

/-- A point of Unicode, surrogates included. -/
def IsPoint (n : Nat) : Prop := n < 0x110000

/-- A value without numbers, whose strings and names are made of points. -/
inductive Plain : Json → Prop
  | null : Plain null
  | bool (b : Bool) : Plain (bool b)
  | string {ps : List Nat} (points : ∀ n ∈ ps, IsPoint n) : Plain (string ps)
  | array {items : List Json} (plain : ∀ j ∈ items, Plain j) : Plain (array items)
  | object {members : List (List Nat × Json)} (names : ∀ m ∈ members, ∀ n ∈ m.1, IsPoint n)
      (plain : ∀ m ∈ members, Plain m.2) : Plain (object members)

/-! ## Points -/

theorem exists_quad {n : Nat} (h : n < 0x10000) :
    ∃ a b c d, quad n = ['\\', 'u', a, b, c, d] ∧ quadPoint? [a, b, c, d] = some n := by
  obtain ⟨hnumeral, hvalue⟩ := numeral_writeHexadecimal (by omega : 0 < 4) h
  simp only [isNumeral, Bool.and_eq_true, decide_eq_true_eq] at hnumeral
  obtain ⟨⟨-, hlength⟩, hdigits⟩ := hnumeral
  set digits := List.replicate (4 - (writeHexadecimal n).length) '0' ++ writeHexadecimal n with hd
  have hfour : digits.length = 4 := by
    rw [hd, List.length_append, List.length_replicate]
    omega
  have hpoint : quadPoint? digits = some n := by
    have hall : digits.all isHexDigit = true := by
      rw [hd, List.all_append, hdigits, Bool.and_true, List.all_replicate]
      simp [isHexDigit]
    unfold quadPoint?
    rw [if_pos hall, hd, hexadecimal_zeros, hvalue]
  have hquad : quad n = '\\' :: 'u' :: digits := rfl
  obtain ⟨a, b, c, d, habcd⟩ := List.length_eq_four.mp hfour
  rw [habcd] at hquad hpoint
  exact ⟨a, b, c, d, hquad, hpoint⟩

theorem readPoints_quad {n : Nat} (h : n < 0x10000) (rest : List Char) :
    readPoints (quad n ++ rest) = (readPoints rest).map fun (ps, r) => (n :: ps, r) := by
  obtain ⟨a, b, c, d, hquad, hpoint⟩ := exists_quad h
  simp only [hquad, List.cons_append, List.nil_append, readPoints, hpoint]
  cases readPoints rest <;> rfl

theorem readPoints_escape {e : Char} {n : Nat} (h : escapePoint? e = some n) (rest : List Char) :
    readPoints ('\\' :: e :: rest) = (readPoints rest).map fun (ps, r) => (n :: ps, r) := by
  have hu : e ≠ 'u' := by
    rintro rfl
    simp [escapePoint?] at h
  rw [readPoints]
  · rw [h]
    cases readPoints rest <;> rfl
  · simp [hu]

theorem readPoints_char {c : Char} (hcontrol : ¬ c.toNat < 0x20) (hquote : c ≠ '"')
    (hslash : c ≠ '\\') (rest : List Char) :
    readPoints (c :: rest) = (readPoints rest).map fun (ps, r) => (c.toNat :: ps, r) := by
  rw [readPoints]
  · rw [if_neg (by simp [hcontrol, hslash])]
    cases readPoints rest <;> rfl
  all_goals simp [hquote, hslash]

theorem toNat_ofNat_of_point {n : Nat} (h : IsPoint n) (hlead : isLead n = false)
    (htrail : isTrail n = false) : (Char.ofNat n).toNat = n := by
  have hvalid : n.isValidChar := by
    unfold IsPoint at h
    simp only [isLead, isTrail, Bool.and_eq_false_iff, decide_eq_false_iff_not] at hlead htrail
    unfold Nat.isValidChar
    omega
  rw [Char.ofNat, dif_pos hvalid]
  rfl

theorem readPoints_printPoint {n : Nat} (h : IsPoint n) (rest : List Char) :
    readPoints (printPoint n ++ rest) = (readPoints rest).map fun (ps, r) => (n :: ps, r) := by
  unfold printPoint
  split_ifs with hquote hslash h8 h9 hA hC hD hescaped
  -- The seven escapes of one letter.
  iterate 7
    · subst n
      exact readPoints_escape rfl rest
  · refine readPoints_quad ?_ rest
    simp only [isLead, isTrail, Bool.or_eq_true, Bool.and_eq_true, decide_eq_true_eq] at hescaped
    omega
  · simp only [Bool.or_eq_true, not_or, Bool.not_eq_true, decide_eq_true_eq] at hescaped
    obtain ⟨⟨hcontrol, hlead⟩, htrail⟩ := hescaped
    have hn := toNat_ofNat_of_point h hlead htrail
    have hne : ∀ c : Char, n ≠ c.toNat → Char.ofNat n ≠ c := by
      rintro _ hc rfl
      exact hc hn.symm
    rw [List.singleton_append,
      readPoints_char (by rwa [hn]) (hne '"' hquote) (hne '\\' hslash), hn]

theorem readPoints_printed {ps : List Nat} (h : ∀ n ∈ ps, IsPoint n) (rest : List Char) :
    readPoints (ps.flatMap printPoint ++ '"' :: rest) = some (ps, rest) := by
  induction ps with
  | nil => rfl
  | cons n ps ih =>
    rw [List.flatMap_cons, List.append_assoc, readPoints_printPoint (h n (by simp)),
      ih fun m hm => h m (by simp [hm])]
    rfl

/-! ## Values -/

/-- Fuel for two steps a character is enough to read the value back, whatever follows it. -/
def ReadsBack (j : Json) : Prop :=
  ∀ fuel rest, 2 * j.print.length ≤ fuel → readValue fuel (j.print ++ rest) = some (j, rest)

/-- Where an item may stand, its first character tells it from a blank and from the end. -/
theorem Plain.exists_cons {j : Json} (h : Plain j) :
    ∃ c cs, j.print = c :: cs ∧ isSpace c = false ∧ c ≠ ']' := by
  cases h with
  | null => exact ⟨_, _, rfl, rfl, by decide⟩
  | bool b => cases b <;> exact ⟨_, _, rfl, rfl, by decide⟩
  | string => exact ⟨_, _, rfl, rfl, by decide⟩
  | array => exact ⟨_, _, by rw [print, List.cons_append], rfl, by decide⟩
  | object => exact ⟨_, _, by rw [print, List.cons_append], rfl, by decide⟩

theorem Plain.exists_cons_items {j : Json} (h : Plain j) (items : List Json) :
    ∃ c cs, printItems (j :: items) = c :: cs ∧ isSpace c = false ∧ c ≠ ']' := by
  obtain ⟨c, cs, hcs, hc⟩ := h.exists_cons
  cases items with
  | nil => exact ⟨c, cs, by rw [printItems, hcs], hc⟩
  | cons j' items => exact ⟨c, _, by simp only [printItems, hcs, List.cons_append]; rfl, hc⟩

theorem exists_cons_members (m : List Nat × Json) (members : List (List Nat × Json)) :
    ∃ cs, printMembers (m :: members) = '"' :: cs := by
  cases members with
  | nil => exact ⟨_, by simp only [printMembers, printPoints, List.cons_append]; rfl⟩
  | cons m' members => exact ⟨_, by simp only [printMembers, printPoints, List.cons_append]; rfl⟩

theorem readsBack_of_succ {j : Json} (hne : j.print ≠ [])
    (h : ∀ fuel rest, 2 * j.print.length ≤ fuel + 1 →
      readValue (fuel + 1) (j.print ++ rest) = some (j, rest)) : ReadsBack j := by
  intro fuel rest hfuel
  have hpos := List.length_pos_iff.mpr hne
  obtain ⟨fuel, rfl⟩ : ∃ f, fuel = f + 1 := ⟨fuel - 1, by omega⟩
  exact h fuel rest hfuel

theorem skipSpace_cons {c : Char} (h : isSpace c = false) (cs : List Char) :
    skipSpace (c :: cs) = c :: cs := by
  simp [skipSpace, h]

theorem readItems_printItems {items : List Json} (hne : items ≠ [])
    (h : ∀ j ∈ items, ReadsBack j) (fuel : Nat) (rest : List Char)
    (hfuel : 2 * (printItems items).length < fuel) :
    readItems fuel (printItems items ++ ']' :: rest) = some (items, rest) := by
  induction items generalizing fuel with
  | nil => exact absurd rfl hne
  | cons j items ih =>
    obtain ⟨fuel, rfl⟩ : ∃ f, fuel = f + 1 := ⟨fuel - 1, by omega⟩
    cases items with
    | nil =>
      simp only [printItems] at hfuel ⊢
      rw [readItems, h j (by simp) fuel _ (by omega)]
      rfl
    | cons j' items =>
      simp only [printItems, List.length_append, List.length_cons] at hfuel ih ⊢
      rw [List.append_assoc, readItems, h j (by simp) fuel _ (by omega)]
      simp only [List.cons_append, Option.bind_eq_bind, Option.bind_some,
        skipSpace_cons (rfl : isSpace ',' = false)]
      rw [ih (by simp) (fun i hi => h i (by simp [hi])) fuel (by omega)]
      rfl

section
variable {k : List Nat} {v : Json} {fuel : Nat}

theorem readMembers_last (hk : ∀ n ∈ k, IsPoint n) (hv : ReadsBack v)
    (hfuel : 2 * v.print.length ≤ fuel) (rest : List Char) :
    readMembers (fuel + 1) (printPoints k ++ ':' :: v.print ++ '\x7d' :: rest) =
      some ([(k, v)], rest) := by
  simp only [readMembers, printPoints, List.cons_append, List.append_assoc, List.nil_append,
    skipSpace_cons (rfl : isSpace '"' = false), readPoints_printed hk, Option.bind_eq_bind,
    Option.bind_some, skipSpace_cons (rfl : isSpace ':' = false), hv fuel _ hfuel]
  rfl

theorem readMembers_next (hk : ∀ n ∈ k, IsPoint n) (hv : ReadsBack v)
    (hfuel : 2 * v.print.length ≤ fuel) (rest : List Char) :
    readMembers (fuel + 1) (printPoints k ++ ':' :: v.print ++ ',' :: rest) =
      (readMembers fuel rest).map fun (members, r) => ((k, v) :: members, r) := by
  simp only [readMembers, printPoints, List.cons_append, List.append_assoc, List.nil_append,
    skipSpace_cons (rfl : isSpace '"' = false), readPoints_printed hk, Option.bind_eq_bind,
    Option.bind_some, skipSpace_cons (rfl : isSpace ':' = false), hv fuel _ hfuel]
  rfl

end

theorem readMembers_printMembers {members : List (List Nat × Json)} (hne : members ≠ [])
    (hnames : ∀ m ∈ members, ∀ n ∈ m.1, IsPoint n) (h : ∀ m ∈ members, ReadsBack m.2)
    (fuel : Nat) (rest : List Char) (hfuel : 2 * (printMembers members).length < fuel) :
    readMembers fuel (printMembers members ++ '\x7d' :: rest) = some (members, rest) := by
  induction members generalizing fuel with
  | nil => exact absurd rfl hne
  | cons m members ih =>
    obtain ⟨fuel, rfl⟩ : ∃ f, fuel = f + 1 := ⟨fuel - 1, by omega⟩
    obtain ⟨k, v⟩ := m
    have hk : ∀ n ∈ k, IsPoint n := hnames (k, v) (by simp)
    have hv : ReadsBack v := h (k, v) (by simp)
    cases members with
    | nil =>
      simp only [printMembers, List.length_append, List.length_cons] at hfuel ⊢
      exact readMembers_last hk hv (by omega) rest
    | cons m' members =>
      simp only [printMembers, List.length_append, List.length_cons] at hfuel ih ⊢
      rw [List.append_assoc, List.cons_append, readMembers_next hk hv (by omega)]
      rw [ih (by simp) (fun i hi => hnames i (by simp [hi])) (fun i hi => h i (by simp [hi])) fuel
        (by omega)]
      rfl

theorem Plain.readsBack {j : Json} (h : Plain j) : ReadsBack j := by
  induction h with
  | null => exact readsBack_of_succ (by simp [print]) fun _ _ _ => rfl
  | bool b => cases b <;> exact readsBack_of_succ (by simp [print]) fun _ _ _ => rfl
  | string points =>
    refine readsBack_of_succ (by simp [print, printPoints]) fun fuel rest _ => ?_
    simp only [print, printPoints, List.cons_append, List.append_assoc, List.nil_append, readValue,
      skipSpace_cons (rfl : isSpace '"' = false), readPoints_printed points]
    rfl
  | @array items plain ih =>
    refine readsBack_of_succ (by simp [print]) fun fuel rest hfuel => ?_
    simp only [print, List.length_append, List.length_cons] at hfuel
    simp only [print, List.cons_append, List.append_assoc, List.nil_append, readValue,
      skipSpace_cons (rfl : isSpace '[' = false)]
    cases items with
    | nil => rfl
    | cons j items =>
      have hread := readItems_printItems (by simp) ih fuel rest (by omega)
      obtain ⟨c, cs, hcs, hspace, hend⟩ := (plain j (by simp)).exists_cons_items items
      rw [hcs, List.cons_append] at hread ⊢
      rw [skipSpace_cons hspace]
      split
      next heq => exact absurd (List.cons.inj heq).1 hend
      next => rw [hread, Option.map_some]
  | @object members names plain ih =>
    refine readsBack_of_succ (by simp [print]) fun fuel rest hfuel => ?_
    simp only [print, List.length_append, List.length_cons] at hfuel
    simp only [print, List.cons_append, List.append_assoc, List.nil_append, readValue,
      skipSpace_cons (rfl : isSpace '\x7b' = false)]
    cases members with
    | nil => rfl
    | cons m members =>
      have hread := readMembers_printMembers (by simp) names ih fuel rest (by omega)
      obtain ⟨cs, hcs⟩ := exists_cons_members m members
      rw [hcs, List.cons_append] at hread ⊢
      simp [skipSpace_cons (rfl : isSpace '"' = false), hread]

theorem parse?_toString {j : Json} (h : Plain j) : parse? (toString j) = some j := by
  have hread := h.readsBack (2 * j.print.length + 2) [] (by omega)
  rw [List.append_nil] at hread
  unfold parse? read
  rw [toString, instToString, String.toList_ofList, hread]
  rfl

end PeerAccess.Json
