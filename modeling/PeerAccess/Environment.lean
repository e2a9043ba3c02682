import PeerAccess.Declaration
import PeerAccess.Text.Blank

/-!
# The environment

Four variables configure the program. A reading of them gives a result and says which variables it
asked for, in order, so that one can see what a result may depend on.
-/

namespace PeerAccess

open Text

inductive Variable
  | listen
  | defaultAllow
  | allow
  | deny
deriving DecidableEq

namespace Variable

def all : List Variable := [listen, defaultAllow, allow, deny]

def name : Variable → String
  | listen => "PG_LISTEN"
  | defaultAllow => "PG_ACL_DEFAULT_ALLOW"
  | allow => "PG_ACL_ALLOW"
  | deny => "PG_ACL_DENY"

end Variable

/-- The variables that are set, with their texts. -/
abbrev Lookup := Variable → Option String

/-- A variable whose bytes are not UTF-8 counts as unset. -/
def Lookup.ofBytes (raw : Variable → Option ByteArray) : Lookup :=
  fun v => (raw v).bind String.fromUTF8?

inductive SettingError
  | notBoolean (name : Variable) (word : String)
  | notEndpoint (name : Variable) (raw : String)
deriving DecidableEq

def SettingError.message : SettingError → String
  | notBoolean v w => s!"Configuration error: {v.name} must be a boolean, got '{w}'"
  | notEndpoint v r => s!"Configuration error: {v.name} must be a socket address, got '{r}'"

/-- A result, and the variables that were asked for on the way to it. -/
structure Reading (ε α : Type) where
  result : Except ε α
  asked : List Variable := []

namespace Reading

variable {ε ε' α β : Type}

def ofExcept (r : Except ε α) : Reading ε α := { result := r }

def ask (lookup : Lookup) (v : Variable) : Reading ε (Option String) :=
  { result := .ok (lookup v), asked := [v] }

/-- After an error nothing more is asked. -/
def bind (x : Reading ε α) (f : α → Reading ε β) : Reading ε β :=
  match x.result with
  | .ok a => { result := (f a).result, asked := x.asked ++ (f a).asked }
  | .error e => { result := .error e, asked := x.asked }

def mapError (f : ε → ε') (x : Reading ε α) : Reading ε' α :=
  { result := x.result.mapError f, asked := x.asked }

instance : Monad (Reading ε) where
  pure a := ofExcept (.ok a)
  bind := bind

@[simp] theorem ofExcept_ok_bind (a : α) (f : α → Reading ε β) : (ofExcept (.ok a)).bind f = f a :=
  rfl

@[simp] theorem ofExcept_error_bind (e : ε) (f : α → Reading ε β) :
    (ofExcept (.error e)).bind f = ofExcept (.error e) := rfl

/-- Asking goes on with the variable's value and is remembered. -/
@[simp] theorem ask_bind (lookup : Lookup) (v : Variable) (f : Option String → Reading ε β) :
    (ask lookup v).bind f =
      { result := (f (lookup v)).result, asked := v :: (f (lookup v)).asked } := rfl

end Reading

/-! ## Values of variables -/

namespace Environment

def yesWords : List String := ["1", "true", "yes", "on"]

def noWords : List String := ["", "0", "false", "no", "off"]

def readFlag (v : Variable) (raw : String) : Except SettingError Bool :=
  let word := lowered (trimmed raw)
  if word ∈ yesWords then .ok true
  else if word ∈ noWords then .ok false
  else .error (.notBoolean v word)

/-- The entries of a list with commas between them; blanks around entries and empty entries do
not count. -/
def readList (raw : String) : List String :=
  ((raw.toList.splitOn ',').map trim).filter (· ≠ []) |>.map String.ofList

/-- An endpoint may have blanks around it in a variable. -/
def readEndpoint (v : Variable) (raw : String) : Except SettingError Endpoint :=
  match Endpoint.parse? (trimmed raw) with
  | some e => .ok e
  | none => .error (.notEndpoint v raw)

/-- The value of an unset variable is `default`. -/
def readOr {α : Type} (default : α) (read : String → Except SettingError α) :
    Option String → Except SettingError α
  | none => .ok default
  | some raw => read raw

end Environment

open Environment

/-- The declaration in the environment: what is allowed comes before what is denied. -/
def Declaration.fromEnvironment (lookup : Lookup) : Reading SettingError Declaration := do
  let flag ← Reading.ask lookup .defaultAllow
  let defaultAllow ← Reading.ofExcept (readOr false (readFlag .defaultAllow) flag)
  let allow ← Reading.ask lookup .allow
  let deny ← Reading.ask lookup .deny
  return {
    defaultAllow
    entries := entriesFor .allow (readList (allow.getD "")) ++
      entriesFor .deny (readList (deny.getD "")) }

/-- The listen address in the environment, `current` where there is none. -/
def Endpoint.fromEnvironment (current : Endpoint) (lookup : Lookup) :
    Reading SettingError Endpoint := do
  let raw ← Reading.ask lookup .listen
  Reading.ofExcept (readOr current (readEndpoint .listen) raw)

end PeerAccess
