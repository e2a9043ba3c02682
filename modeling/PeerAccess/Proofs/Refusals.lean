import PeerAccess.Proofs.CheckedReader

/-!
# Refused patterns

Which texts are no patterns, and what is said about each of them. A text of no known shape has no
numbers to complain about; one of a known shape is refused for the first group that is too large for
an octet, and if there is none for a prefix longer than the address.
-/

namespace PeerAccess.Pattern

open Text
open PatternError (Reason)

/-- The groups of an IPv4 pattern: what stands between dots, as far as the slash. -/
def dottedGroups (s : String) : List (List Char) := (s.toList.takeWhile (· ≠ '/')).splitOn '.'

/-- A group too large for an octet, with its value. -/
def Oversized (g : List Char) (n : Nat) : Prop := Numeral 10 1 3 g n ∧ 255 < n

/-- Why `s` is refused, and what is said about it. -/
inductive Refused (s : String) : Reason → String → Prop
  | unrecognised (kind : Kind.classify s.toList = none) :
      Refused s .unrecognised "not a recognised IPv4 or IPv6 peer pattern"
  | group {shape : Shape} {n : Nat} (kind : Kind.classify s.toList = some ⟨.v4, shape⟩)
      (first : FirstBad Oversized (dottedGroups s) n) :
      Refused s (.groupOutOfRange n) s!"IPv4 group {n} is out of range (0-255)"
  | length {f : Family} {before digits : List Char} {n : Nat}
      (kind : Kind.classify s.toList = some ⟨f, .block⟩)
      (groups : f = .v4 → ∀ g ∈ dottedGroups s, ∀ n, ¬ Oversized g n)
      (parts : s.toList = before ++ '/' :: digits) (first : '/' ∉ before)
      (value : Numeral 10 1 f.form.lengthDigits digits n) (longer : f.form.bits < n) :
      Refused s (.lengthOutOfRange n f.form.bits)
        s!"prefix length {n} is longer than {f.form.bits} bits"

/-! ## Groups and lengths -/

theorem oversized_iff {g : List Char} (hg : Family.v4.isGroup g = true) {n : Nat} :
    Oversized g n ↔ decimal g = n ∧ 255 < n := by
  unfold Oversized
  rw [numeral_ten_iff]
  simp [show isNumeral isDigit 1 3 g = true from hg]

theorem not_oversized_star (n : Nat) : ¬ Oversized star n := by
  rintro ⟨hnumeral, _⟩
  exact absurd (numeral_ten_iff.mp hnumeral).1 (by decide)

/-- Only IPv4 has groups that are too large and yet short enough. -/
def BadGroup (f : Family) (g : List Char) (r : Reason) : Prop :=
  f = .v4 ∧ ∃ n, Oversized g n ∧ .groupOutOfRange n = r

section
variable {f : Family} {g : List Char} {r : Reason}

theorem readGroup_v4_eq_error_iff (hg : Family.v4.isGroup g = true) :
    readGroup .v4 g = .error r ↔ ∃ n, Oversized g n ∧ .groupOutOfRange n = r := by
  simp only [oversized_iff hg]
  unfold readGroup
  rw [test_eq_error_iff]
  constructor
  · rintro ⟨hbound, rfl⟩
    exact ⟨_, ⟨rfl, Nat.lt_of_succ_le (Nat.le_of_not_lt hbound)⟩, rfl⟩
  · rintro ⟨_, ⟨rfl, htop⟩, rfl⟩
    exact ⟨Nat.not_lt_of_le htop, rfl⟩

theorem readGroup_eq_error_iff (hg : f.isGroup g = true) :
    readGroup f g = .error r ↔ BadGroup f g r := by
  unfold BadGroup
  cases f with
  | v4 => simp [readGroup_v4_eq_error_iff hg]
  | v6 => simp [readGroup_v6 hg]

theorem readOpenGroup_eq_error_iff (hg : (g == star || f.isGroup g) = true) :
    readOpenGroup f g = .error r ↔ BadGroup f g r := by
  unfold readOpenGroup
  by_cases hstar : g = star
  · simp [hstar, BadGroup, not_oversized_star]
  · rw [if_neg hstar, map_eq_error_iff]
    exact readGroup_eq_error_iff (by simpa [hstar] using hg)

theorem readLength_eq_error_iff {ds : List Char}
    (hds : isNumeral isDigit 1 f.lengthDigits ds = true) :
    readLength f ds = .error r ↔
      ∃ n, Numeral 10 1 f.form.lengthDigits ds n ∧ f.form.bits < n ∧
        .lengthOutOfRange n f.form.bits = r := by
  have hdigits : f.form.lengthDigits = f.lengthDigits := by cases f <;> rfl
  have hbits : f.form.bits = f.bits := by cases f <;> rfl
  simp only [numeral_ten_iff, hdigits, hbits]
  unfold readLength
  rw [test_eq_error_iff]
  constructor
  · rintro ⟨hlonger, rfl⟩
    exact ⟨_, ⟨hds, rfl⟩, Nat.lt_of_not_le hlonger, rfl⟩
  · rintro ⟨_, ⟨_, rfl⟩, hlonger, rfl⟩
    exact ⟨Nat.not_le_of_lt hlonger, rfl⟩

theorem firstBad_badGroup_iff {gs : List (List Char)} :
    FirstBad (BadGroup f) gs r ↔
      f = .v4 ∧ ∃ n, FirstBad Oversized gs n ∧ .groupOutOfRange n = r := by
  rw [← firstBad_image_iff]
  unfold BadGroup
  cases f <;> simp [FirstBad]

theorem mapM_readGroup_eq_error_iff {gs : List (List Char)} (hgs : ∀ g ∈ gs, f.isGroup g = true) :
    gs.mapM (readGroup f) = .error r ↔
      f = .v4 ∧ ∃ n, FirstBad Oversized gs n ∧ .groupOutOfRange n = r := by
  rw [← firstBad_badGroup_iff]
  exact mapM_eq_error_iff fun g hg _ => readGroup_eq_error_iff (hgs g hg)

theorem mapM_readOpenGroup_eq_error_iff {gs : List (List Char)}
    (hgs : ∀ g ∈ gs, (g == star || f.isGroup g) = true) :
    gs.mapM (readOpenGroup f) = .error r ↔
      f = .v4 ∧ ∃ n, FirstBad Oversized gs n ∧ .groupOutOfRange n = r := by
  rw [← firstBad_badGroup_iff]
  exact mapM_eq_error_iff fun g hg _ => readOpenGroup_eq_error_iff (hgs g hg)

theorem exists_mapM_readGroup_iff {gs : List (List Char)} (hgs : ∀ g ∈ gs, f.isGroup g = true) :
    (∃ ns, gs.mapM (readGroup f) = .ok ns) ↔ (f = .v4 → ∀ g ∈ gs, ∀ n, ¬ Oversized g n) := by
  rw [exists_mapM_eq_ok_iff]
  have hgroup : ∀ g ∈ gs, (∃ n, readGroup f g = .ok n) ↔ ∀ r, ¬ BadGroup f g r := by
    intro g hg
    simp only [← readGroup_eq_error_iff (hgs g hg)]
    cases readGroup f g <;> simp
  constructor
  · rintro h rfl g hg n hn
    exact (hgroup g hg).mp (h g hg) _ ⟨rfl, n, hn, rfl⟩
  · intro h g hg
    rw [hgroup g hg]
    rintro r ⟨hf, n, hn, _⟩
    exact h hf g hg n hn

end

/-! ## Texts taken apart -/

section
variable {w : Written} (hw : w.WellFormed)
include hw

theorem isGroup_of_wellFormed (hshape : w.kind.shape ≠ .wildcard) :
    ∀ g ∈ w.groups, w.kind.family.isGroup g = true := by
  intro g hg
  simpa [Written.Allows, hshape] using hw.groups g hg

theorem ofWritten_eq_error_iff {r : Reason} :
    ofWritten w = .error r ↔
      (w.kind.family = .v4 ∧ ∃ n, FirstBad Oversized w.groups n ∧ .groupOutOfRange n = r) ∨
        w.kind.shape = .block ∧
          (w.kind.family = .v4 → ∀ g ∈ w.groups, ∀ n, ¬ Oversized g n) ∧
          ∃ n, Numeral 10 1 w.kind.family.form.lengthDigits w.length n ∧
            w.kind.family.form.bits < n ∧ .lengthOutOfRange n w.kind.family.form.bits = r := by
  obtain ⟨⟨f, shape⟩, gs, ds⟩ := w
  unfold ofWritten
  cases shape with
  | exact =>
    have hgs := isGroup_of_wellFormed hw (by simp)
    simp [bind_eq_error_iff, mapM_readGroup_eq_error_iff hgs, pure, Except.pure]
  | wildcard =>
    have hgs : ∀ g ∈ gs, (g == star || f.isGroup g) = true := by
      simpa [Written.Allows, or_comm] using hw.groups
    simp [bind_eq_error_iff, mapM_readOpenGroup_eq_error_iff hgs, pure, Except.pure]
  | block =>
    have hgs := isGroup_of_wellFormed hw (by simp)
    have hds : isNumeral isDigit 1 f.lengthDigits ds = true := hw.length
    simp only [bind_eq_error_iff, mapM_readGroup_eq_error_iff hgs, readLength_eq_error_iff hds,
      pure, Except.pure, reduceCtorEq, and_false, exists_false, or_false, exists_and_right,
      exists_mapM_readGroup_iff hgs, true_and]

theorem takeWhile_text : w.text.takeWhile (· ≠ '/') = w.address := by
  have haddress : ∀ c ∈ w.address, decide (c ≠ '/') = true := by
    intro c hc
    rw [decide_eq_true_eq]
    rintro rfl
    exact hw.slash_not_mem hc
  unfold Written.text
  rw [List.takeWhile_append_of_pos haddress]
  split <;> simp

theorem dottedGroups_of_text {s : String} (hf : w.kind.family = .v4) (htext : w.text = s.toList) :
    dottedGroups s = w.groups := by
  have hsplit := Written.splitOn_join hw.count hw.groups
  unfold dottedGroups
  rw [← htext, takeWhile_text hw]
  rw [hf] at hsplit
  unfold Written.address
  rw [hf]
  exact hsplit

end

theorem exists_scan_of_classify {cs : List Char} {k : Kind} (h : Kind.classify cs = some k) :
    ∃ w, Written.scan cs = some w ∧ w.kind = k := by
  rwa [← Kind.map_kind_scan, Option.map_eq_some_iff] at h

theorem classify_of_scan {cs : List Char} {w : Written} (h : Written.scan cs = some w) :
    Kind.classify cs = some w.kind := by
  rw [← Kind.map_kind_scan, h]
  rfl

theorem read_of_refused {s : String} {r : Reason} {t : String} (h : Refused s r t) :
    t = r.message ∧ read s.toList = .error r := by
  unfold read
  cases h with
  | unrecognised hkind =>
    rw [← Kind.map_kind_scan, Option.map_eq_none_iff] at hkind
    rw [hkind]
    exact ⟨rfl, rfl⟩
  | group hkind hfirst =>
    obtain ⟨w, hscan, hwkind⟩ := exists_scan_of_classify hkind
    obtain ⟨hw, htext⟩ := Written.canonical_of_scan hscan
    have hf : w.kind.family = .v4 := by rw [hwkind]
    rw [dottedGroups_of_text hw.toWellFormed hf htext] at hfirst
    rw [hscan]
    exact ⟨rfl, (ofWritten_eq_error_iff hw.toWellFormed).mpr (.inl ⟨hf, _, hfirst, rfl⟩)⟩
  | @length f before digits n hkind hgroups hparts hslash hvalue hlonger =>
    obtain ⟨w, hscan, hwkind⟩ := exists_scan_of_classify hkind
    obtain ⟨hw, htext⟩ := Written.canonical_of_scan hscan
    have hf : w.kind.family = f := by rw [hwkind]
    have hshape : w.kind.shape = .block := by rw [hwkind]
    have hdigits : w.length = digits := by
      have hcut := hw.cut_text
      rw [if_pos hshape, htext, hparts, cut_append _ hslash] at hcut
      simp only [Option.some.injEq, Prod.mk.injEq] at hcut
      exact hcut.2.symm
    subst hf hdigits
    have hgroups : w.kind.family = .v4 → ∀ g ∈ w.groups, ∀ n, ¬ Oversized g n := by
      intro hv4
      rw [← dottedGroups_of_text hw.toWellFormed hv4 htext]
      exact hgroups hv4
    rw [hscan]
    exact ⟨rfl, (ofWritten_eq_error_iff hw.toWellFormed).mpr
      (.inr ⟨hshape, hgroups, n, hvalue, hlonger, rfl⟩)⟩

theorem refused_of_read {s : String} {r : Reason} (h : read s.toList = .error r) :
    Refused s r r.message := by
  unfold read at h
  split at h
  · rename_i hscan
    obtain rfl := Except.error.inj h
    exact .unrecognised (by rw [← Kind.map_kind_scan, hscan]; rfl)
  · rename_i w hscan
    obtain ⟨hw, htext⟩ := Written.canonical_of_scan hscan
    have hkind := classify_of_scan hscan
    rcases (ofWritten_eq_error_iff hw.toWellFormed).mp h with
      ⟨hf, n, hfirst, rfl⟩ | ⟨hshape, hgroups, n, hvalue, hlonger, rfl⟩
    · rw [← dottedGroups_of_text hw.toWellFormed hf htext] at hfirst
      have hv4 : Kind.classify s.toList = some ⟨.v4, w.kind.shape⟩ := by rw [hkind, ← hf]
      exact .group hv4 hfirst
    · have hparts : s.toList = w.address ++ '/' :: w.length := by
        rw [← htext, Written.text, if_pos hshape]
      refine .length ?_ (fun hf => ?_) hparts hw.slash_not_mem hvalue hlonger
      · rw [hkind, ← hshape]
      · rw [dottedGroups_of_text hw.toWellFormed hf htext]
        exact hgroups hf

theorem parse_eq_error_iff {s : String} {e : PatternError} :
    parse s = .error e ↔ e.pattern = s ∧ Refused s e.reason e.reason.message := by
  unfold parse
  rw [mapError_eq_error_iff]
  constructor
  · rintro ⟨r, hr, rfl⟩
    exact ⟨rfl, refused_of_read hr⟩
  · rintro ⟨rfl, h⟩
    exact ⟨e.reason, (read_of_refused h).2, rfl⟩

theorem parse_of_v6 {s : String} {shape : Shape}
    (hkind : Kind.classify s.toList = some ⟨.v6, shape⟩) (hshape : shape ≠ .block) :
    ∃ p, parse s = .ok p := by
  cases hparse : parse s with
  | ok p => exact ⟨p, rfl⟩
  | error e =>
    obtain ⟨pattern, reason⟩ := e
    obtain ⟨_, h⟩ := parse_eq_error_iff.mp hparse
    cases h with
    | unrecognised hnone => simp [hkind] at hnone
    | group hv4 => simp [hkind] at hv4
    | length hblock =>
      rw [hkind, Option.some.injEq, Kind.mk.injEq] at hblock
      exact absurd hblock.2 hshape

/-! ## Texts of refusals -/

namespace Checked

open PatternError (Reason)

theorem head?_toList_append {s t : String} {c : Char} (h : s.toList.head? = some c) :
    (s ++ t).toList.head? = some c := by
  rw [String.toList_append, List.head?_append, h, Option.some_or]

/-- The first characters tell a fallback from all that is said of a text. -/
theorem Refusal.head?_message (r : Refusal) :
    r.message.toList.head? = some (match r with
      | known .unrecognised => 'n'
      | known (.groupOutOfRange _) => 'I'
      | known (.lengthOutOfRange ..) => 'p'
      | badGroup .. | badLength _ => 'b'
      | missingLength => 'm') := by
  unfold message
  cases r with
  | known reason =>
    unfold Reason.message
    cases reason with
    | unrecognised => rfl
    | groupOutOfRange n => exact head?_toList_append (head?_toList_append rfl)
    | lengthOutOfRange n bits =>
      iterate 4 apply head?_toList_append
      rfl
  | badGroup f g => cases f <;> exact head?_toList_append (head?_toList_append rfl)
  | badLength ds => exact head?_toList_append (head?_toList_append rfl)
  | missingLength => rfl

theorem Refusal.message_known_ne (reason : Reason) {fallback : Refusal}
    (h : ∀ r, fallback ≠ known r) : (known reason).message ≠ fallback.message := by
  intro heq
  have hhead := congrArg (·.toList.head?) heq
  simp only [head?_message] at hhead
  cases fallback with
  | known r => exact h r rfl
  | badGroup f g | badLength ds | missingLength => cases reason <;> simp at hhead

end Checked

/-- Places, counters and differences never fail while a text is read, and no fallback is taken. A
text is refused for one of three reasons, which the text alone decides on, and what is said names
the number that is too large. -/
theorem refusals_exact (s : String) :
    Checked.parse s = ((parse s).map matcher).mapError
        (fun e => .refused e.pattern (.known e.reason)) ∧
      (∀ e, parse s = .error e ↔ e.pattern = s ∧ Refused s e.reason e.reason.message) ∧
      (∀ e, Checked.parse s = .error e ↔
        ∃ reason, Refused s reason reason.message ∧ .refused s (.known reason) = e) ∧
      (∀ pattern refusal, Checked.parse s = .error (.refused pattern refusal) →
        (∀ f g, refusal.message ≠ (Checked.Refusal.badGroup f g).message) ∧
          (∀ digits, refusal.message ≠ (Checked.Refusal.badLength digits).message) ∧
          refusal.message ≠ Checked.Refusal.missingLength.message) ∧
      ∀ shape, Kind.classify s.toList = some ⟨.v6, shape⟩ → shape ≠ .block →
        ∃ p, parse s = .ok p := by
  have hrefused : ∀ e, Checked.parse s = .error e ↔
      ∃ reason, Refused s reason reason.message ∧ .refused s (.known reason) = e := by
    intro e
    rw [Checked.parse_eq, mapError_eq_error_iff]
    simp only [map_eq_error_iff, parse_eq_error_iff]
    constructor
    · rintro ⟨⟨_, reason⟩, ⟨rfl, h⟩, rfl⟩
      exact ⟨reason, h, rfl⟩
    · rintro ⟨reason, h, rfl⟩
      exact ⟨⟨s, reason⟩, ⟨rfl, h⟩, rfl⟩
  refine ⟨Checked.parse_eq s, fun e => parse_eq_error_iff, hrefused, fun pattern refusal h => ?_,
    fun shape => parse_of_v6⟩
  obtain ⟨reason, _, he⟩ := (hrefused _).mp h
  obtain ⟨rfl, rfl⟩ := Checked.Failure.refused.inj he
  exact ⟨fun f g => Checked.Refusal.message_known_ne reason nofun,
    fun ds => Checked.Refusal.message_known_ne reason nofun,
    Checked.Refusal.message_known_ne reason nofun⟩

/-- The first large group counts, before the length does. -/
theorem refusals_exact_large_group_first :
    Refused "1.0300.2.3" .unrecognised "not a recognised IPv4 or IPv6 peer pattern" ∧
      Checked.parse "1.300.2.999/40" =
        .error (.refused "1.300.2.999/40" (.known (.groupOutOfRange 300))) ∧
      Refused "1.300.2.999/40" (.groupOutOfRange 300) "IPv4 group 300 is out of range (0-255)" ∧
      (∀ g, "IPv4 group 300 is out of range (0-255)" ≠
        (Checked.Refusal.badGroup .v4 g).message) ∧
      Refused "10.0.0.0/033" .unrecognised "not a recognised IPv4 or IPv6 peer pattern" ∧
      Refused "0:0:0:0:0:0:0:ffff/129" (.lengthOutOfRange 129 128)
        "prefix length 129 is longer than 128 bits" ∧
      Kind.classify "fe80:0:0:0:*:*:*:*".toList = some ⟨.v6, .wildcard⟩ ∧
      ∃ p, parse "fe80:0:0:0:*:*:*:*" = .ok p := by
  have hgroup : Refused "1.300.2.999/40" (.groupOutOfRange 300)
      "IPv4 group 300 is out of range (0-255)" :=
    (((refusals_exact "1.300.2.999/40").2.1 ⟨_, .groupOutOfRange 300⟩).mp rfl).2
  have hparse : Checked.parse "1.300.2.999/40" =
      .error (.refused "1.300.2.999/40" (.known (.groupOutOfRange 300))) :=
    ((refusals_exact "1.300.2.999/40").2.2.1 _).mpr ⟨_, hgroup, rfl⟩
  refine ⟨?_, hparse, hgroup, ?_, ?_, ?_, rfl, ?_⟩
  · exact (((refusals_exact "1.0300.2.3").2.1 ⟨_, .unrecognised⟩).mp rfl).2
  · exact ((refusals_exact "1.300.2.999/40").2.2.2.1 _ _ hparse).1 .v4
  · exact (((refusals_exact "10.0.0.0/033").2.1 ⟨_, .unrecognised⟩).mp rfl).2
  · exact (((refusals_exact "0:0:0:0:0:0:0:ffff/129").2.1 ⟨_, .lengthOutOfRange 129 128⟩).mp rfl).2
  · exact (refusals_exact "fe80:0:0:0:*:*:*:*").2.2.2.2 .wildcard rfl (by decide)

end PeerAccess.Pattern
