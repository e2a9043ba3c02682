import PeerAccess.Proofs.AddressText
import PeerAccess.Proofs.JsonText
import PeerAccess.Proofs.Steps
import PeerAccess.Settings.Json

/-!
# Settings as text

What is written as JSON comes back when the text is read: actions, entries, endpoints, declarations
and whole settings. A field that has its default may be left out, also inside a field that is not.
-/

namespace PeerAccess

namespace Json

/-! ## Texts -/

theorem isPoint_toNat (c : Char) : IsPoint c.toNat := by
  have h := c.valid
  simp only [UInt32.isValidChar, Nat.isValidChar] at h
  show c.val.toNat < 0x110000
  omega

theorem not_surrogate (c : Char) : isLead c.toNat = false ∧ isTrail c.toNat = false := by
  have h := c.valid
  simp only [UInt32.isValidChar, Nat.isValidChar] at h
  have hc : c.toNat = c.val.toNat := rfl
  simp only [isLead, isTrail, Bool.and_eq_false_iff, decide_eq_false_iff_not]
  omega

theorem textOf?_cons (c : Char) (ps : List Nat) :
    textOf? (c.toNat :: ps) = (textOf? ps).map (c :: ·) := by
  obtain ⟨hlead, htrail⟩ := not_surrogate c
  cases ps with
  | nil => simp [textOf?, hlead, htrail, Char.ofNat_toNat]
  | cons m ps => simp [textOf?, hlead, htrail, Char.ofNat_toNat]

theorem textOf?_map_toNat (cs : List Char) : textOf? (cs.map Char.toNat) = some cs := by
  induction cs with
  | nil => rfl
  | cons c cs ih => rw [List.map_cons, textOf?_cons, ih, Option.map_some]

@[simp] theorem textOf?_pointsOf (s : String) : textOf? (pointsOf s) = some s.toList :=
  textOf?_map_toNat s.toList

@[simp] theorem text?_ofText (s : String) : (ofText s).text? = some s := by
  simp [ofText, text?]

theorem isPoint_of_mem_pointsOf {s : String} {n : Nat} (h : n ∈ pointsOf s) : IsPoint n := by
  obtain ⟨c, _, rfl⟩ := List.mem_map.mp h
  exact isPoint_toNat c

theorem plain_ofText (s : String) : Plain (ofText s) := .string fun _ => isPoint_of_mem_pointsOf

/-! ## Objects -/

theorem plain_ofMembers {ms : List (String × Json)} (h : ∀ m ∈ ms, Plain m.2) :
    Plain (ofMembers ms) := by
  refine .object ?_ ?_
  · simp only [List.mem_map]
    rintro _ ⟨m, _, rfl⟩ n hn
    exact isPoint_of_mem_pointsOf hn
  · simp only [List.mem_map]
    rintro _ ⟨m, hm, rfl⟩
    exact h m hm

theorem filter_eq_nil_of_not_mem {ms : List (String × Json)} {n : String}
    (h : n ∉ ms.map Prod.fst) : ms.filter (·.1 == n) = [] := by
  rw [List.filter_eq_nil_iff]
  rintro m hm heq
  exact h (List.mem_map.mpr ⟨m, hm, eq_of_beq heq⟩)

theorem filter_of_nodup {ms : List (String × Json)} (h : (ms.map Prod.fst).Nodup) (n : String) :
    (ms.filter (·.1 == n) = [] ∧ ms.lookup n = none) ∨
      ∃ v, ms.filter (·.1 == n) = [(n, v)] ∧ ms.lookup n = some v := by
  induction ms with
  | nil => exact .inl ⟨rfl, rfl⟩
  | cons m ms ih =>
    obtain ⟨k, v⟩ := m
    simp only [List.map_cons, List.nodup_cons] at h
    by_cases hk : k = n
    · subst hk
      exact .inr ⟨v, by simp [filter_eq_nil_of_not_mem h.1], List.lookup_cons_self⟩
    · have hne : (n == k) = false := beq_false_of_ne (Ne.symm hk)
      rw [List.filter_cons_of_neg (by simpa using hk), List.lookup_cons, hne]
      exact ih h.2

theorem fields?_ofMembers {ms : List (String × Json)} (h : (ms.map Prod.fst).Nodup)
    (names : List String) :
    (ofMembers ms).fields? names = some (names.map fun n => ms.lookup n) := by
  simp only [ofMembers, fields?, Option.bind_eq_bind]
  rw [mapM_map_eq_some (fun m => by simp), Option.bind_some]
  refine mapM_eq_some_map (fun n => ?_) names
  rcases filter_of_nodup h n with ⟨hfilter, hlookup⟩ | ⟨v, hfilter, hlookup⟩
  · rw [hfilter, hlookup]
  · rw [hfilter, hlookup]

/-! ## Members that may be left out -/

/-- The member of a field, or none where a field with its default is left out. -/
def member {α : Type} [DecidableEq α] (out : Bool) (name : String) (default value : α) (j : Json) :
    List (String × Json) :=
  if out ∧ value = default then [] else [(name, j)]

section
variable {α β : Type} [DecidableEq α] [DecidableEq β] {out : Bool} {name : String}
  {default value : α} {j : Json}

theorem names_member : ((member out name default value j).map Prod.fst).Sublist [name] := by
  unfold member
  split_ifs <;> simp

theorem lookup_member_of_ne {n : String} (h : n ≠ name) :
    (member out name default value j).lookup n = none := by
  unfold member
  split_ifs with hout
  · rfl
  · rw [List.lookup_cons, beq_false_of_ne h]
    rfl

/-- The reader finds the value whether it is written or left out. -/
theorem optionalField_member {read : Json → Option α} (h : read j = some value) :
    optionalField default read ((member out name default value j).lookup name) = some value := by
  unfold member
  split_ifs with hout
  · rw [List.lookup_nil, optionalField, hout.2]
  · rw [List.lookup_cons_self, optionalField, h]

theorem Plain.of_mem_member (h : Plain j) {m : String × Json}
    (hm : m ∈ member out name default value j) : Plain m.2 := by
  unfold member at hm
  split_ifs at hm with hout
  · simp at hm
  · rw [List.mem_singleton] at hm
    rwa [hm]

theorem fields?_members {name' : String} {default' value' : β} {j' : Json} {out' : Bool}
    (h : name ≠ name') :
    (ofMembers (member out name default value j ++
        member out' name' default' value' j')).fields? [name, name'] =
      some [(member out name default value j).lookup name,
        (member out' name' default' value' j').lookup name'] := by
  have hnodup : ((member out name default value j ++
      member out' name' default' value' j').map Prod.fst).Nodup := by
    rw [List.map_append]
    exact (names_member.append names_member).nodup (by simp [h])
  rw [fields?_ofMembers hnodup]
  simp [List.lookup_append, lookup_member_of_ne h, lookup_member_of_ne h.symm]

theorem plain_ofMembers_members {name' : String} {default' value' : β} {j' : Json} {out' : Bool}
    (h : Plain j) (h' : Plain j') :
    Plain (ofMembers (member out name default value j ++
      member out' name' default' value' j')) := by
  refine plain_ofMembers fun m hm => ?_
  rcases List.mem_append.mp hm with hm | hm
  · exact h.of_mem_member hm
  · exact h'.of_mem_member hm

end

/-! ## Values through text -/

/-- The value that the text spells. -/
def decode? {α : Type} (read : Json → Option α) (s : String) : Option α := (parse? s).bind read

/-- What is written comes back. So a text that spells a value may be written anew. -/
structure Faithful {α : Type} (write : α → Json) (read : Json → Option α) : Prop where
  decode?_written : ∀ v, decode? read (toString (write v)) = some v
  decode?_rewritten : ∀ s, ((decode? read s).bind fun v => decode? read (toString (write v))) =
    decode? read s

theorem faithful_of_plain {α : Type} {write : α → Json} {read : Json → Option α}
    (plain : ∀ v, Plain (write v)) (h : ∀ v, read (write v) = some v) : Faithful write read := by
  have hwritten : ∀ v, decode? read (toString (write v)) = some v := by
    intro v
    rw [decode?, parse?_toString (plain v), Option.bind_some, h]
  refine ⟨hwritten, fun s => ?_⟩
  simp only [hwritten]
  exact Option.bind_fun_some _

end Json

open Json (Faithful Plain faithful_of_plain ofText ofMembers member fields?_members)

/-! ## Actions, entries and endpoints -/

theorem Action.ofJson?_toJson (a : Action) : ofJson? a.toJson = some a := by
  cases a <;> rfl

theorem Action.plain_toJson (a : Action) : Plain a.toJson := Json.plain_ofText _

theorem Entry.ofJson?_toJson (e : Entry) : ofJson? e.toJson = some e := by
  have hfields : e.toJson.fields? fieldNames =
      some [some e.action.toJson, some (ofText e.pattern)] :=
    Json.fields?_ofMembers (by simp) fieldNames
  unfold ofJson?
  rw [hfields]
  simp [Action.ofJson?_toJson]

theorem Entry.plain_toJson (e : Entry) : Plain e.toJson := by
  refine Json.plain_ofMembers fun m hm => ?_
  simp only [List.mem_cons, List.not_mem_nil, or_false] at hm
  rcases hm with rfl | rfl
  · exact e.action.plain_toJson
  · exact Json.plain_ofText _

theorem Endpoint.ofServerJson?_toServerJson (e : Endpoint) :
    ofServerJson? e.toServerJson = some e := by
  have hfields : e.toServerJson.fields? ["listen"] = some [some (ofText (toString e))] :=
    Json.fields?_ofMembers (by simp) ["listen"]
  unfold ofServerJson?
  rw [hfields]
  simp [e.parse?_toString]

theorem Endpoint.plain_toServerJson (e : Endpoint) : Plain e.toServerJson := by
  refine Json.plain_ofMembers fun m hm => ?_
  rw [List.mem_singleton.mp hm]
  exact Json.plain_ofText _

/-! ## Declarations and settings -/

/-- The fields that a writer leaves out where they have their default. -/
structure Omission where
  defaultAllow : Bool := false
  entries : Bool := false
  listen : Bool := false
  access : Bool := false

/-- The declaration without the members that are left out. -/
def Declaration.shortened (o : Omission) (d : Declaration) : Json :=
  ofMembers
    (member o.defaultAllow "default_allow" false d.defaultAllow (.bool d.defaultAllow) ++
      member o.entries "rules" [] d.entries (.array (d.entries.map Entry.toJson)))

/-- The settings without the members that are left out. -/
def Settings.shortened (o : Omission) (s : Settings) : Json :=
  ofMembers
    (member o.listen "server" Endpoint.default s.listen s.listen.toServerJson ++
      member o.access "acl" {} s.access (s.access.shortened o))

namespace Declaration

theorem shortened_full : shortened {} = toJson := rfl

theorem listOfJson?_entries (es : List Entry) :
    listOfJson? Entry.ofJson? (.array (es.map Entry.toJson)) = some es :=
  mapM_map_eq_some Entry.ofJson?_toJson es

theorem ofJson?_shortened (o : Omission) (d : Declaration) : ofJson? (d.shortened o) = some d := by
  have hfields : (d.shortened o).fields? fieldNames = some [_, _] := fields?_members (by simp)
  have hflag : ∀ b, boolOfJson? (.bool b) = some b := fun _ => rfl
  unfold ofJson?
  rw [hfields]
  simp [Json.optionalField_member, hflag, listOfJson?_entries]

theorem plain_shortened (o : Omission) (d : Declaration) : Plain (d.shortened o) := by
  refine Json.plain_ofMembers_members (.bool _) (.array fun j hj => ?_)
  obtain ⟨e, _, rfl⟩ := List.mem_map.mp hj
  exact e.plain_toJson

end Declaration

namespace Settings

theorem shortened_full : shortened {} = toJson := rfl

theorem ofJson?_shortened (o : Omission) (s : Settings) : ofJson? (s.shortened o) = some s := by
  have hfields : (s.shortened o).fields? fieldNames = some [_, _] := fields?_members (by simp)
  unfold ofJson?
  rw [hfields]
  simp [Json.optionalField_member, Endpoint.ofServerJson?_toServerJson,
    Declaration.ofJson?_shortened]

theorem plain_shortened (o : Omission) (s : Settings) : Plain (s.shortened o) :=
  Json.plain_ofMembers_members s.listen.plain_toServerJson (s.access.plain_shortened o)

/-- Every value comes back from its JSON text, and a text that is read may be replaced by what is
written for it. This holds of declarations and settings whichever members are left out, as long as
each of them has its default. -/
theorem written_comes_back :
    Faithful Action.toJson Action.ofJson? ∧ Faithful Entry.toJson Entry.ofJson? ∧
      Faithful Declaration.toJson Declaration.ofJson? ∧
      Faithful Endpoint.toServerJson Endpoint.ofServerJson? ∧
      Faithful Settings.toJson Settings.ofJson? ∧
      ∀ o : Omission, Faithful (Declaration.shortened o) Declaration.ofJson? ∧
        Faithful (Settings.shortened o) Settings.ofJson? := by
  have hdeclaration : ∀ o, Faithful (Declaration.shortened o) Declaration.ofJson? := fun o =>
    faithful_of_plain (Declaration.plain_shortened o) (Declaration.ofJson?_shortened o)
  have hsettings : ∀ o, Faithful (Settings.shortened o) Settings.ofJson? := fun o =>
    faithful_of_plain (plain_shortened o) (ofJson?_shortened o)
  exact ⟨faithful_of_plain Action.plain_toJson Action.ofJson?_toJson,
    faithful_of_plain Entry.plain_toJson Entry.ofJson?_toJson,
    Declaration.shortened_full ▸ hdeclaration {},
    faithful_of_plain Endpoint.plain_toServerJson Endpoint.ofServerJson?_toServerJson,
    shortened_full ▸ hsettings {}, fun o => ⟨hdeclaration o, hsettings o⟩⟩

example : (Json.parse? "\x7b\x7d").bind ofJson? = some {} := rfl

end Settings

end PeerAccess
