/-!
# Cuts

A text is cut at the first place where a separator stands (`cut`), or everywhere (`List.splitOn`).
`cut_eq_some_iff` says where the first place is.
-/

namespace PeerAccess.Text

/-- What stands before the first `sep`, and what stands after it. -/
def cut (sep : Char) : List Char → Option (List Char × List Char)
  | [] => none
  | c :: r => if c = sep then some ([], r) else (cut sep r).map fun (a, b) => (c :: a, b)

/-- The pieces with `sep` between them. -/
def join (sep : Char) (pieces : List (List Char)) : List Char := [sep].intercalate pieces

theorem cut_eq_none_iff {sep : Char} {cs : List Char} : cut sep cs = none ↔ sep ∉ cs := by
  induction cs with
  | nil => simp [cut]
  | cons c r ih =>
    by_cases h : c = sep
    · simp [cut, h]
    · simp [cut, h, ih, Ne.symm h]

theorem cut_append {sep : Char} {a : List Char} (b : List Char) (h : sep ∉ a) :
    cut sep (a ++ sep :: b) = some (a, b) := by
  induction a with
  | nil => simp [cut]
  | cons c r ih =>
    simp only [List.mem_cons, not_or] at h
    simp [cut, Ne.symm h.1, ih h.2]

theorem cut_eq_some_iff {sep : Char} {cs a b : List Char} :
    cut sep cs = some (a, b) ↔ cs = a ++ sep :: b ∧ sep ∉ a := by
  constructor
  · intro h
    induction cs generalizing a with
    | nil => simp [cut] at h
    | cons c r ih =>
      by_cases hc : c = sep
      · simp [cut, hc] at h
        simp [h.1, h.2, hc]
      · simp only [cut, hc, if_false, Option.map_eq_some_iff, Prod.mk.injEq, Prod.exists] at h
        obtain ⟨a', b', hr, rfl, rfl⟩ := h
        obtain ⟨rfl, hn⟩ := ih hr
        simp [hn, Ne.symm hc]
  · rintro ⟨rfl, h⟩
    exact cut_append b h

end PeerAccess.Text
