import PeerAccess.Proofs.Spelling
import PeerAccess.RuleFlags

/-!
# Patterns inside other texts

Hexadecimal digits, stars and three separators are all that a pattern is written with. Blanks and
commas are not among them, so a pattern comes out of a rule flag and out of a list as it went in.
-/

namespace PeerAccess

open Text Environment

/-! ## Characters of patterns -/

def IsPatternChar (c : Char) : Prop := isHexDigit c = true ∨ c ∈ ['*', '.', ':', '/']

theorem IsPatternChar.not_blank {c : Char} (h : IsPatternChar c) : isBlank c = false := by
  rcases h with hdigit | hmark
  · obtain ⟨d, hd, hc⟩ : ∃ d, DigitIn 16 c d := ⟨_, digitIn_of_isHexDigit hdigit⟩
    rcases hc with rfl | rfl <;> interval_cases d <;> decide
  · simp only [List.mem_cons, List.not_mem_nil, or_false] at hmark
    rcases hmark with rfl | rfl | rfl | rfl <;> decide

theorem IsPatternChar.ne_comma {c : Char} (h : IsPatternChar c) : c ≠ ',' := by
  rintro rfl
  exact absurd h (by unfold IsPatternChar; decide)

theorem isPatternChar_separator (f : Family) : IsPatternChar f.separator := by
  cases f <;> exact .inr (by decide)

theorem isPatternChar_of_mem_address {k : Kind} {gs : List (List Char)}
    (hgroups : ∀ g ∈ gs, Written.Allows k g) {c : Char} (hc : c ∈ join k.family.separator gs) :
    IsPatternChar c := by
  rcases Written.mem_join hc with rfl | ⟨g, hg, hcg⟩
  · exact isPatternChar_separator k.family
  · rcases hgroups g hg with hgroup | ⟨_, rfl⟩
    · exact .inl (Written.isHexDigit_of_mem_isGroup hgroup c hcg)
    · obtain rfl := List.mem_singleton.mp hcg
      exact .inr (by decide)

theorem Written.WellFormed.isPatternChar {w : Written} (h : w.WellFormed) {c : Char}
    (hc : c ∈ w.text) : IsPatternChar c := by
  rcases h.mem_text_cases hc with haddress | rfl | hdigit
  · exact isPatternChar_of_mem_address h.groups haddress
  · exact .inr (by decide)
  · exact .inl (isHexDigit_of_isDigit hdigit)

section
variable {s : String} {p : Pattern} (h : Pattern.parse s = .ok p)
include h

theorem isPatternChar_of_parse : ∀ c ∈ s.toList, IsPatternChar c := by
  obtain ⟨c, hc, _⟩ := parse_eq_ok_iff.mp h
  obtain ⟨w, hw, htext, _⟩ := exists_written_of_spells hc
  intro ch hch
  exact hw.isPatternChar (htext ▸ hch)

theorem trim_of_parse : trim s.toList = s.toList :=
  trim_eq_self fun c hc => (isPatternChar_of_parse h c hc).not_blank

theorem comma_not_mem_of_parse : ',' ∉ s.toList := fun hc =>
  (isPatternChar_of_parse h ',' hc).ne_comma rfl

theorem ne_empty_of_parse : s ≠ "" := by
  rintro rfl
  cases h

end

/-! ## Rule flags -/

theorem colon_not_mem_word (a : Action) : ':' ∉ a.word.toList := by cases a <;> decide

theorem ofWord?_word (a : Action) :
    Action.ofWord? (lowered (String.ofList (trim a.word.toList))) = some a := by
  cases a <;> rfl

theorem Entry.toList_toFlag (e : Entry) :
    e.toFlag.toList = e.action.word.toList ++ ':' :: e.pattern.toList := by
  simp [toFlag, toString]

theorem Entry.ofFlag_toFlag {e : Entry} (h : trim e.pattern.toList = e.pattern.toList) :
    Entry.ofFlag e.toFlag = .ok e := by
  unfold Entry.ofFlag
  rw [e.toList_toFlag, cut_append _ (colon_not_mem_word e.action)]
  simp [ofWord?_word, h]

/-! ## Lists in variables -/

def listText (ps : List String) : String := ",".intercalate ps

theorem toList_listText (ps : List String) :
    (listText ps).toList = join ',' (ps.map String.toList) := by
  unfold listText join
  rw [String.toList_intercalate]
  rfl

/-- A text that may be an entry of a list: there is something in it, but no comma, and no blanks are
around it. -/
structure Listable (s : String) : Prop where
  ne_empty : s ≠ ""
  no_comma : ',' ∉ s.toList
  trim_eq : trim s.toList = s.toList

theorem listable_of_parse {s : String} {p : Pattern} (h : Pattern.parse s = .ok p) : Listable s :=
  ⟨ne_empty_of_parse h, comma_not_mem_of_parse h, trim_of_parse h⟩

theorem readList_listText {ps : List String} (h : ∀ p ∈ ps, Listable p) :
    readList (listText ps) = ps := by
  unfold readList
  rw [toList_listText]
  rcases eq_or_ne ps [] with rfl | hne
  · rfl
  · have hcommas : ∀ cs ∈ ps.map String.toList, ',' ∉ cs := by
      simp only [List.mem_map]
      rintro _ ⟨p, hp, rfl⟩
      exact (h p hp).no_comma
    have htrim : (ps.map String.toList).map trim = ps.map String.toList := by
      rw [List.map_map]
      exact List.map_congr_left fun p hp => (h p hp).trim_eq
    have hfilter : (ps.map String.toList).filter (· ≠ []) = ps.map String.toList := by
      rw [List.filter_eq_self]
      simp only [List.mem_map]
      rintro _ ⟨p, hp, rfl⟩
      simpa using (h p hp).ne_empty
    unfold join
    rw [List.splitOn_intercalate ',' hcommas (by simpa using hne), htrim, hfilter, List.map_map]
    simp

end PeerAccess
