import PeerAccess.Environment

/-!
# Rule flags

The flags that every command shares: ordered rules as `ACTION:PATTERN`, patterns to allow, patterns
to deny. The rules come first, then what is allowed, then what is denied.
-/

namespace PeerAccess

open Text

structure RuleFlags where
  rules : List String := []
  allow : List String := []
  deny : List String := []
  defaultAllow : Bool := false
deriving DecidableEq

inductive FlagError
  | noColon (raw : String)
  | unknownAction (word : String)
  | badPattern (error : PatternError)
deriving DecidableEq

def FlagError.message : FlagError → String
  | noColon raw => s!"invalid rule \"{raw}\": expected ACTION:PATTERN"
  | unknownAction word => s!"invalid rule action \"{word}\": expected allow or deny"
  | badPattern e => e.message

/-- An entry from `ACTION:PATTERN`. IPv6 patterns have colons of their own, so the first one
separates. -/
def Entry.ofFlag (raw : String) : Except FlagError Entry :=
  match cut ':' raw.toList with
  | none => .error (.noColon raw)
  | some (action, pattern) =>
    let word := lowered (String.ofList (trim action))
    match Action.ofWord? word with
    | none => .error (.unknownAction word)
    | some action => .ok { action, pattern := String.ofList (trim pattern) }

/-- The entry in the form that `ofFlag` reads. -/
def Entry.toFlag (e : Entry) : String := s!"{e.action.word}:{e.pattern}"

namespace RuleFlags

/-- No flag was given at all. -/
def isEmpty (f : RuleFlags) : Bool :=
  f.rules.isEmpty && f.allow.isEmpty && f.deny.isEmpty && !f.defaultAllow

/-- What the flags say, patterns unchecked. -/
def entries (f : RuleFlags) : Except FlagError (List Entry) := do
  let ordered ← f.rules.mapM Entry.ofFlag
  return ordered ++ Declaration.entriesFor .allow f.allow ++ Declaration.entriesFor .deny f.deny

def unchecked (f : RuleFlags) : Except FlagError Declaration :=
  f.entries.map fun es => { defaultAllow := f.defaultAllow, entries := es }

/-- What the flags say. A malformed rule is found before any bad pattern. -/
def toDeclaration (f : RuleFlags) : Except FlagError Declaration := do
  let d ← f.unchecked
  d.validate.mapError .badPattern
  return d

/-- The warnings of checking the patterns. -/
def warnings (f : RuleFlags) : List Event :=
  match f.unchecked with
  | .ok d => d.warnings
  | .error _ => []

end RuleFlags

end PeerAccess
