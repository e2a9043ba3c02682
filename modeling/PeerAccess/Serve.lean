import PeerAccess.Policy.Basic
import PeerAccess.RuleFlags
import PeerAccess.Settings

/-!
# Preparing to serve

Flags, environment and defaults give the settings; the settings give an endpoint to listen on and
the policy that guards it.
-/

namespace PeerAccess

/-- What the system answers when it cannot do what it was asked for. -/
inductive SystemError
  | addressInUse
  | networkUnreachable
  | other (text : String)
deriving DecidableEq

def SystemError.message : SystemError → String
  | addressInUse => "Address already in use (os error 98)"
  | networkUnreachable => "Network is unreachable (os error 101)"
  | other text => text

inductive ServeError
  | badListen (raw : String)
  | badFlags (error : FlagError)
  | badSetting (error : SettingError)
  | badPattern (error : PatternError)
  | cannotBind (endpoint : Endpoint) (cause : SystemError)
deriving DecidableEq

namespace ServeError

/-- The error and its causes, the outermost first. -/
def chain : ServeError → List String
  | badListen raw => [s!"invalid listen address \"{raw}\"", "invalid socket address syntax"]
  | badFlags e => [e.message]
  | badSetting e => [e.message]
  | badPattern e => [e.message]
  | cannotBind e cause => [s!"failed to bind {e}", cause.message]

def message (e : ServeError) : String := e.chain.headD ""

def fullMessage (e : ServeError) : String := ": ".intercalate e.chain

end ServeError

/-- The flags' declaration; without any rule flag there is none. -/
def RuleFlags.given (f : RuleFlags) : Except ServeError (Option Declaration) :=
  if f.isEmpty then .ok none
  else (f.toDeclaration.mapError .badFlags).map some

namespace Settings

/-- The listen flag allows no blanks around the endpoint. -/
def readListen : Option String → Except ServeError (Option Endpoint)
  | none => .ok none
  | some raw =>
    match Endpoint.parse? raw with
    | some e => .ok (some e)
    | none => .error (.badListen raw)

/-- Flags over environment over defaults. The listen flag is read first, then the rules, then the
variables that are still needed. -/
def ofFlags (flags : RuleFlags) (listen : Option String) (lookup : Lookup) :
    Reading ServeError Settings := do
  let listen ← Reading.ofExcept (readListen listen)
  let access ← Reading.ofExcept flags.given
  (resolve listen access lookup).mapError .badSetting

end Settings

/-- An endpoint to listen on and the policy for it, or why there is none. -/
structure Preparation where
  result : Except ServeError (Endpoint × Policy)
  events : List Event := []

def Policy.loadEvents (p : Policy) : List Event :=
  .policyLoaded p.rules.length p.defaultAllow :: p.rules.map .ruleLoaded

/-- Patterns given as flags are compiled twice, once to check them and once for the policy, and
warn each time. -/
def prepare (flags : RuleFlags) (listen : Option String) (lookup : Lookup) : Preparation :=
  match Settings.readListen listen with
  | .error e => { result := .error e }
  | .ok _ =>
    match (Settings.ofFlags flags listen lookup).result with
    | .error e => { result := .error e, events := flags.warnings }
    | .ok s =>
      match Policy.ofDeclaration s.access with
      | .error e =>
        { result := .error (.badPattern e), events := flags.warnings ++ s.access.warnings }
      | .ok p =>
        { result := .ok (s.listen, p)
          events := flags.warnings ++ s.access.warnings ++ p.loadEvents }

end PeerAccess
