import PeerAccess.Proofs.AllowedFirst

/-!
# Declarations as environment text

A declaration whose allowed entries come first can be written into variables and read back, and no
other kind is ever read from them. The text leaves room: blanks around entries and around the flag,
entries with nothing but blanks in them, and the case of the flag's letters do not count.
-/

namespace PeerAccess

open Text Environment

def Blank (cs : List Char) : Prop := ∀ c ∈ cs, isBlank c = true

instance (cs : List Char) : Decidable (Blank cs) :=
  List.decidableBAll (fun c => isBlank c = true) cs

/-! ## Blanks around a text -/

theorem Blank.not_mem_comma {cs : List Char} (h : Blank cs) : ',' ∉ cs := by
  intro hc
  exact absurd (h ',' hc) (by decide)

theorem trimLeft_of_blank {cs : List Char} (h : Blank cs) : trimLeft cs = [] :=
  List.dropWhile_eq_nil_iff.mpr h

theorem trimLeft_append {pre : List Char} (h : Blank pre) (cs : List Char) :
    trimLeft (pre ++ cs) = trimLeft cs :=
  List.dropWhile_append_of_pos h

theorem trim_of_blank {cs : List Char} (h : Blank cs) : trim cs = [] := by
  unfold trim
  rw [trimLeft_of_blank h]
  rfl

theorem trim_append {post : List Char} (h : Blank post) (cs : List Char) :
    trim (cs ++ post) = trim cs := by
  have hleft : trimLeft (cs ++ post) =
      if (trimLeft cs).isEmpty then trimLeft post else trimLeft cs ++ post :=
    List.dropWhile_append
  unfold trim
  rw [hleft]
  -- Where `cs` is blanks alone, `post` already goes from the left.
  split
  · rename_i hempty
    rw [trimLeft_of_blank h, List.isEmpty_iff.mp hempty]
  · rw [List.reverse_append, trimLeft_append]
    simpa [Blank] using h

theorem trim_pad {pre post : List Char} (hpre : Blank pre) (hpost : Blank post) (cs : List Char) :
    trim (pre ++ cs ++ post) = trim cs := by
  rw [trim_append hpost]
  unfold trim
  rw [trimLeft_append hpre]

theorem exists_pad (cs : List Char) :
    ∃ pre post, Blank pre ∧ Blank post ∧ pre ++ trim cs ++ post = cs := by
  have hpad : ∀ cs : List Char, ∃ pre, Blank pre ∧ pre ++ trimLeft cs = cs := fun cs =>
    ⟨cs.takeWhile isBlank, fun c hc => List.mem_takeWhile_imp hc, List.takeWhile_append_dropWhile⟩
  obtain ⟨pre, hpre, hleft⟩ := hpad cs
  obtain ⟨post, hpost, hright⟩ := hpad (trimLeft cs).reverse
  refine ⟨pre, post.reverse, hpre, by simpa [Blank] using hpost, ?_⟩
  unfold trim
  rw [List.append_assoc, ← List.reverse_append, hright, List.reverse_reverse, hleft]

theorem trim_trim (cs : List Char) : trim (trim cs) = trim cs := by
  obtain ⟨pre, post, hpre, hpost, hcs⟩ := exists_pad cs
  have := trim_pad hpre hpost (trim cs)
  rw [hcs] at this
  exact this.symm

theorem mem_of_mem_trim {cs : List Char} {c : Char} (h : c ∈ trim cs) : c ∈ cs := by
  obtain ⟨pre, post, _, _, hcs⟩ := exists_pad cs
  rw [← hcs]
  simp [h]

/-! ## Lists -/

theorem not_mem_of_mem_splitOn {sep : Char} {cs g : List Char} (h : g ∈ cs.splitOn sep) :
    sep ∉ g := by
  induction cs generalizing g with
  | nil =>
    rw [List.splitOn_nil, List.mem_singleton] at h
    simp [h]
  | cons c cs ih =>
    rw [List.splitOn_cons_eq_if_modifyHead] at h
    split at h
    · rcases List.mem_cons.mp h with rfl | h
      · exact List.not_mem_nil
      · exact ih h
    · rename_i hc
      obtain ⟨first, rest, hsplit⟩ := List.exists_cons_of_ne_nil (List.splitOn_ne_nil sep cs)
      rw [hsplit, List.modifyHead_cons] at h
      rcases List.mem_cons.mp h with rfl | h
      · have hfirst := ih (g := first) (by simp [hsplit])
        simp only [List.mem_cons, not_or]
        exact ⟨fun heq => hc (by simp [heq]), hfirst⟩
      · exact ih (by simp [hsplit, h])

theorem listable_of_mem_readList {raw s : String} (h : s ∈ readList raw) : Listable s := by
  unfold readList at h
  simp only [List.mem_map, List.mem_filter, decide_eq_true_eq] at h
  obtain ⟨cs, ⟨⟨g, hg, rfl⟩, hne⟩, rfl⟩ := h
  refine ⟨?_, ?_, ?_⟩
  · intro hempty
    exact hne (by simpa using congrArg String.toList hempty)
  · rw [String.toList_ofList]
    exact fun hc => not_mem_of_mem_splitOn hg (mem_of_mem_trim hc)
  · rw [String.toList_ofList, trim_trim]

/-- The pieces on the right are those on the left with blanks around them, and there may be pieces
of blanks between them. -/
inductive Padded : List (List Char) → List (List Char) → Prop
  | nil : Padded [] []
  | entry {gs gs' : List (List Char)} (pre g post : List Char) (hpre : Blank pre)
      (hpost : Blank post) (h : Padded gs gs') : Padded (g :: gs) ((pre ++ g ++ post) :: gs')
  | gap {g : List Char} {gs gs' : List (List Char)} (hg : Blank g) (h : Padded gs gs') :
      Padded gs (g :: gs')

namespace Padded

variable {gs gs' : List (List Char)} (h : Padded gs gs')
include h

theorem entries_eq : (gs'.map trim).filter (· ≠ []) = (gs.map trim).filter (· ≠ []) := by
  induction h with
  | nil => rfl
  | entry pre g post hpre hpost _ ih =>
    rw [List.map_cons, List.map_cons, trim_pad hpre hpost, List.filter_cons, List.filter_cons, ih]
  | gap hg _ ih => rw [List.map_cons, trim_of_blank hg, List.filter_cons_of_neg (by simp), ih]

theorem not_mem_comma (hgs : ∀ g ∈ gs, ',' ∉ g) : ∀ g ∈ gs', ',' ∉ g := by
  induction h with
  | nil => exact hgs
  | entry pre g post hpre hpost _ ih =>
    rw [List.forall_mem_cons] at hgs ⊢
    refine ⟨?_, ih hgs.2⟩
    simp only [List.mem_append, not_or]
    exact ⟨⟨hpre.not_mem_comma, hgs.1⟩, hpost.not_mem_comma⟩
  | gap hg _ ih => exact List.forall_mem_cons.mpr ⟨hg.not_mem_comma, ih hgs⟩

theorem ne_nil (hgs : gs ≠ []) : gs' ≠ [] := by
  cases h with
  | nil => exact hgs
  | entry | gap => exact List.cons_ne_nil _ _

end Padded

def Relisted (raw raw' : String) : Prop :=
  ∃ gs', Padded (raw.toList.splitOn ',') gs' ∧ raw' = String.ofList (join ',' gs')

theorem Relisted.readList_eq {raw raw' : String} (h : Relisted raw raw') :
    readList raw' = readList raw := by
  obtain ⟨gs', hpadded, rfl⟩ := h
  have hcommas := hpadded.not_mem_comma fun g => not_mem_of_mem_splitOn
  have hne := hpadded.ne_nil (List.splitOn_ne_nil _ _)
  unfold readList
  rw [String.toList_ofList, join, List.splitOn_intercalate ',' hcommas hne, hpadded.entries_eq]

/-! ## Flags -/

/-- The same letter of ASCII in either case, or the same character. -/
def SameLetter (c c' : Char) : Prop := c' = c ∨ c' = c.toLower ∨ c' = c.toUpper

theorem forall_between {P : Char → Prop} {low high : Nat}
    (h : ∀ n, low ≤ n → n ≤ high → P (Char.ofNat n)) {c : Char}
    (hc : low ≤ c.toNat ∧ c.toNat ≤ high) : P c := by
  have := h c.toNat hc.1 hc.2
  rwa [Char.ofNat_toNat] at this

theorem capital_or_toLower_eq (c : Char) : (65 ≤ c.toNat ∧ c.toNat ≤ 90) ∨ c.toLower = c := by
  unfold Char.toLower
  split
  · rename_i h
    simp only [UInt32.le_iff_toNat_le, ge_iff_le] at h
    exact .inl h
  · exact .inr rfl

theorem small_or_toUpper_eq (c : Char) : (97 ≤ c.toNat ∧ c.toNat ≤ 122) ∨ c.toUpper = c := by
  unfold Char.toUpper
  split
  · rename_i h
    simp only [UInt32.le_iff_toNat_le] at h
    exact .inl h
  · exact .inr rfl

theorem toLower_laws (c : Char) :
    isBlank c.toLower = isBlank c ∧ c.toLower.toLower = c.toLower := by
  rcases capital_or_toLower_eq c with hc | hc
  · revert hc
    apply forall_between
    intro n hlow hhigh
    interval_cases n <;> decide
  · rw [hc]
    exact ⟨rfl, hc⟩

theorem toLower_toUpper (c : Char) : c.toUpper.toLower = c.toLower := by
  rcases small_or_toUpper_eq c with hc | hc
  · revert hc
    apply forall_between
    intro n hlow hhigh
    interval_cases n <;> decide
  · rw [hc]

theorem SameLetter.toLower_eq {c c' : Char} (h : SameLetter c c') : c'.toLower = c.toLower := by
  rcases h with rfl | rfl | rfl
  · rfl
  · exact (toLower_laws c).2
  · exact toLower_toUpper c

theorem map_toLower_trimLeft (cs : List Char) :
    trimLeft (cs.map Char.toLower) = (trimLeft cs).map Char.toLower := by
  unfold trimLeft
  rw [List.dropWhile_map]
  congr 2
  funext c
  exact (toLower_laws c).1

theorem map_toLower_trim (cs : List Char) :
    trim (cs.map Char.toLower) = (trim cs).map Char.toLower := by
  unfold trim
  rw [map_toLower_trimLeft, ← List.map_reverse, map_toLower_trimLeft, List.map_reverse]

/-- The same flag with other padding, in letters of either case. -/
def Reworded (raw raw' : String) : Prop :=
  ∃ pre cs post, Blank pre ∧ Blank post ∧ List.Forall₂ SameLetter raw.toList cs ∧
    raw' = String.ofList (pre ++ cs ++ post)

theorem map_toLower_of_sameLetter {cs cs' : List Char} (h : List.Forall₂ SameLetter cs cs') :
    cs'.map Char.toLower = cs.map Char.toLower := by
  induction h with
  | nil => rfl
  | cons hc _ ih => rw [List.map_cons, List.map_cons, hc.toLower_eq, ih]

theorem Reworded.readFlag_eq {raw raw' : String} (h : Reworded raw raw') (v : Variable) :
    readFlag v raw' = readFlag v raw := by
  obtain ⟨pre, cs, post, hpre, hpost, hletters, rfl⟩ := h
  have hword : lowered (trimmed (String.ofList (pre ++ cs ++ post))) = lowered (trimmed raw) := by
    rw [← String.toList_inj]
    simp only [toList_lowered, toList_trimmed, String.toList_ofList, trim_pad hpre hpost,
      ← map_toLower_trim, map_toLower_of_sameLetter hletters]
  unfold readFlag
  rw [hword]

/-- Another text for the same variables: blanks and capitals differ, and gaps in the lists. -/
structure Lookup.Respelled (lookup lookup' : Lookup) : Prop where
  flag : Option.Rel Reworded (lookup .defaultAllow) (lookup' .defaultAllow)
  allow : Option.Rel Relisted (lookup .allow) (lookup' .allow)
  deny : Option.Rel Relisted (lookup .deny) (lookup' .deny)

theorem listed_of_relisted {raw raw' : Option String} (h : Option.Rel Relisted raw raw') :
    readList (raw'.getD "") = readList (raw.getD "") := by
  cases h with
  | none => rfl
  | some h => exact h.readList_eq

theorem readOr_of_reworded {raw raw' : Option String} (h : Option.Rel Reworded raw raw') (b : Bool)
    (v : Variable) : readOr b (readFlag v) raw' = readOr b (readFlag v) raw := by
  unfold readOr
  cases h with
  | none => rfl
  | some h => exact h.readFlag_eq v

/-! ## Declarations -/

namespace Declaration

/-- Nothing that is allowed stands behind something that is denied. -/
def AllowedFirst (d : Declaration) : Prop :=
  d.entries.Pairwise fun e e' => e.action = .deny → e'.action = .deny

structure EnvShaped (d : Declaration) : Prop where
  allowedFirst : d.AllowedFirst
  listable : ∀ e ∈ d.entries, Listable e.pattern

def patternsOf (d : Declaration) (a : Action) : List String :=
  (d.entries.filter (·.action = a)).map (·.pattern)

end Declaration

/-- The environment with this declaration in it. -/
def Lookup.holding (base : Lookup) (d : Declaration) : Lookup :=
  base.withRules d.defaultAllow (d.patternsOf .allow) (d.patternsOf .deny)

namespace Declaration

theorem entriesFor_patternsOf {d : Declaration} {a : Action} :
    entriesFor a (d.patternsOf a) = d.entries.filter (·.action = a) := by
  unfold entriesFor patternsOf
  rw [List.map_map]
  refine (List.map_congr_left fun e he => ?_).trans (List.map_id _)
  simp only [List.mem_filter, decide_eq_true_eq] at he
  simp [← he.2]

theorem filter_append_filter {es : List Entry}
    (h : es.Pairwise fun e e' => e.action = .deny → e'.action = .deny) :
    es.filter (·.action = .allow) ++ es.filter (·.action = .deny) = es := by
  induction es with
  | nil => rfl
  | cons e es ih =>
    rw [List.pairwise_cons] at h
    cases haction : e.action with
    | allow => simp [haction, ih h.2]
    | deny =>
      have hrest : ∀ e' ∈ es, e'.action = .deny := fun e' he' => h.1 e' he' haction
      have hallow : es.filter (·.action = .allow) = [] := by
        rw [List.filter_eq_nil_iff]
        intro e' he'
        simp [hrest e' he']
      have hdeny : es.filter (·.action = .deny) = es := by
        rw [List.filter_eq_self]
        intro e' he'
        simp [hrest e' he']
      simp [haction, hallow, hdeny]

theorem AllowedFirst.eq_ofLists {d : Declaration} (h : d.AllowedFirst) :
    ofLists d.defaultAllow (d.patternsOf .allow) (d.patternsOf .deny) = d := by
  unfold ofLists
  rw [entriesFor_patternsOf, entriesFor_patternsOf, filter_append_filter h]

theorem allowedFirst_ofLists (b : Bool) (allow deny : List String) :
    (ofLists b allow deny).AllowedFirst := by
  unfold AllowedFirst ofLists entriesFor
  rw [List.pairwise_append]
  simp [List.pairwise_iff_getElem]

theorem EnvShaped.comes_back {d : Declaration} (h : d.EnvShaped) (base : Lookup) :
    (fromEnvironment (base.holding d)).result = .ok d := by
  have hlistable : ∀ s ∈ d.patternsOf .allow ++ d.patternsOf .deny, Listable s := by
    simp only [patternsOf, List.mem_append, List.mem_map, List.mem_filter]
    rintro s (⟨e, ⟨he, _⟩, rfl⟩ | ⟨e, ⟨he, _⟩, rfl⟩) <;> exact h.listable e he
  unfold Lookup.holding
  rw [fromEnvironment_withRules base d.defaultAllow hlistable]
  exact congrArg Except.ok h.allowedFirst.eq_ofLists

theorem envShaped_of_validate {d : Declaration} (h : d.validate = .ok ())
    (hfirst : d.AllowedFirst) : d.EnvShaped := by
  obtain ⟨rs, hrs⟩ := validate_eq_ok_iff.mp h
  refine ⟨hfirst, fun e he => ?_⟩
  obtain ⟨p, hp⟩ := parse_of_compile hrs e he
  exact listable_of_parse hp

theorem envShaped_of_fromEnvironment {lookup : Lookup} {d : Declaration}
    (h : (fromEnvironment lookup).result = .ok d) : d.EnvShaped := by
  obtain ⟨b, _, rfl⟩ := fromEnvironment_eq_ok_iff.mp h
  rw [ofVariables_eq]
  refine ⟨allowedFirst_ofLists b _ _, ?_⟩
  simp only [ofLists, entriesFor, List.mem_append, List.mem_map]
  rintro e (⟨s, hs, rfl⟩ | ⟨s, hs, rfl⟩) <;> exact listable_of_mem_readList hs

theorem fromEnvironment_of_respelled {lookup lookup' : Lookup} (h : lookup.Respelled lookup') :
    fromEnvironment lookup' = fromEnvironment lookup := by
  have hflag := readOr_of_reworded h.flag false .defaultAllow
  cases hb : readOr false (readFlag .defaultAllow) (lookup .defaultAllow) with
  | error e => rw [fromEnvironment_of_error hb, fromEnvironment_of_error (hflag.trans hb)]
  | ok b =>
    rw [fromEnvironment_of_ok hb, fromEnvironment_of_ok (hflag.trans hb), ofVariables, ofVariables,
      listed_of_relisted h.allow, listed_of_relisted h.deny]

/-- Declarations with what is allowed in front are those that the environment can hold, and it holds
them however they are spelled. -/
theorem environment_comes_back :
    (∀ d : Declaration, d.EnvShaped →
      ∀ base : Lookup, (fromEnvironment (base.holding d)).result = .ok d) ∧
      (∀ d : Declaration, d.validate = .ok () → d.AllowedFirst → d.EnvShaped) ∧
      (∀ (lookup : Lookup) (d : Declaration), (fromEnvironment lookup).result = .ok d →
        d.EnvShaped ∧ ∀ base : Lookup, (fromEnvironment (base.holding d)).result = .ok d) ∧
      ∀ lookup lookup' : Lookup, lookup.Respelled lookup' →
        fromEnvironment lookup' = fromEnvironment lookup := by
  refine ⟨fun d hd => hd.comes_back, fun d => envShaped_of_validate, fun lookup d h => ?_,
    fun lookup lookup' => fromEnvironment_of_respelled⟩
  have hshaped := envShaped_of_fromEnvironment h
  exact ⟨hshaped, hshaped.comes_back⟩

/-- Blanks inside an entry stay; those around it go, and so does a gap. -/
theorem environment_comes_back_spaced :
    EnvShaped ⟨true, [⟨.allow, "10.0.0.0/8"⟩, ⟨.deny, "10.1.2.3"⟩]⟩ ∧
      EnvShaped ⟨true, [⟨.allow, "ten eight"⟩]⟩ ∧
      (fromEnvironment (Lookup.holding (fun _ => none) ⟨true, [⟨.allow, "ten eight"⟩]⟩)).result =
        .ok ⟨true, [⟨.allow, "ten eight"⟩]⟩ ∧
      fromEnvironment (fun v =>
          if v = .defaultAllow then some "\u3000TRUE" else
          if v = .allow then some " ,ten eight\t" else none) =
        fromEnvironment fun v =>
          if v = .defaultAllow then some "true" else
          if v = .allow then some "ten eight" else none := by
  obtain ⟨hback, hvalid, hread, hrespelled⟩ := environment_comes_back
  have hfirst : AllowedFirst ⟨true, [⟨.allow, "10.0.0.0/8"⟩, ⟨.deny, "10.1.2.3"⟩]⟩ :=
    allowedFirst_ofLists true ["10.0.0.0/8"] ["10.1.2.3"]
  have hshaped : EnvShaped ⟨true, [⟨.allow, "ten eight"⟩]⟩ :=
    (hread (fun v => if v = .defaultAllow then some "1" else
      if v = .allow then some "ten eight" else none) _ rfl).1
  refine ⟨hvalid _ rfl hfirst, hshaped, hback _ hshaped _, hrespelled _ _ ⟨?_, ?_, .none⟩⟩
  · refine .some ⟨['\u3000'], ['T', 'R', 'U', 'E'], [], by decide, by decide, ?_, rfl⟩
    exact .cons (.inr (.inr rfl)) (.cons (.inr (.inr rfl)) (.cons (.inr (.inr rfl))
      (.cons (.inr (.inr rfl)) .nil)))
  · exact .some ⟨_, .gap (g := [' ']) (by decide) (.entry [] "ten eight".toList ['\t']
      (by decide) (by decide) .nil), rfl⟩

end Declaration

end PeerAccess
