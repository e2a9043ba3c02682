import PeerAccess.Json.Printer
import PeerAccess.Json.Reader
import PeerAccess.Settings

/-!
# Settings as JSON

Each kind of setting has a written form (`toJson`) and a reader for it (`ofJson?`). Readers also
take a record as an array of its fields, an action as the name of a `null` member, and fill in
fields that have a default.
-/

namespace PeerAccess

open Json (ofText ofMembers)

def Action.toJson (a : Action) : Json := ofText a.word

def Action.ofJson? : Json → Option Action
  | .object [(k, .null)] => do Action.ofWord? (String.ofList (← Json.textOf? k))
  | j => j.text?.bind Action.ofWord?

namespace Entry

def fieldNames : List String := ["action", "pattern"]

def toJson (e : Entry) : Json :=
  ofMembers [("action", e.action.toJson), ("pattern", ofText e.pattern)]

/-- Both fields are required. -/
def ofJson? (j : Json) : Option Entry :=
  match j.fields? fieldNames with
  | some [some action, some pattern] => do
    return { action := ← Action.ofJson? action, pattern := ← pattern.text? }
  | _ => none

end Entry

/-- A field that may be missing but, where it stands, has to be readable. -/
def optionalField {α : Type} (default : α) (read : Json → Option α) : Option Json → Option α
  | none => some default
  | some j => read j

def boolOfJson? : Json → Option Bool
  | .bool b => some b
  | _ => none

def listOfJson? {α : Type} (read : Json → Option α) : Json → Option (List α)
  | .array items => items.mapM read
  | _ => none

namespace Declaration

def fieldNames : List String := ["default_allow", "rules"]

def toJson (d : Declaration) : Json :=
  ofMembers
    [("default_allow", .bool d.defaultAllow), ("rules", .array (d.entries.map Entry.toJson))]

def ofJson? (j : Json) : Option Declaration :=
  match j.fields? fieldNames with
  | some [flag, rules] => do
    return {
      defaultAllow := ← optionalField false boolOfJson? flag
      entries := ← optionalField [] (listOfJson? Entry.ofJson?) rules }
  | _ => none

end Declaration

namespace Endpoint

/-- The server's part of the settings, which is the endpoint alone. -/
def toServerJson (e : Endpoint) : Json := ofMembers [("listen", ofText (toString e))]

/-- The endpoint is required. -/
def ofServerJson? (j : Json) : Option Endpoint :=
  match j.fields? ["listen"] with
  | some [some listen] => listen.text?.bind Endpoint.parse?
  | _ => none

end Endpoint

namespace Settings

def fieldNames : List String := ["server", "acl"]

def toJson (s : Settings) : Json :=
  ofMembers [("server", s.listen.toServerJson), ("acl", s.access.toJson)]

def ofJson? (j : Json) : Option Settings :=
  match j.fields? fieldNames with
  | some [server, acl] => do
    return {
      listen := ← optionalField Endpoint.default Endpoint.ofServerJson? server
      access := ← optionalField {} Declaration.ofJson? acl }
  | _ => none

end Settings

end PeerAccess
