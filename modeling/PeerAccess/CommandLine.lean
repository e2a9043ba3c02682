import PeerAccess.Check
import PeerAccess.Serve

/-!
# The command line

Two commands, `check` and `serve`. Flags with a value take it after `=` or as the next argument,
where it must not look like a flag; flags and operands may be mixed, and after `--` everything is an
operand. Arguments are read from the left, and the first one that does not fit ends the reading:
what stands after it, a request for help too, does not count any more.
-/

namespace PeerAccess

inductive Command
  | check (flags : RuleFlags) (addresses : List String)
  | serve (flags : RuleFlags) (listen : Option String)
deriving DecidableEq

/-- Why arguments are no command to carry out. -/
inductive Command.Stop
  | usage
  | help
  | version
deriving DecidableEq

/-- What has been read of a command's arguments. -/
structure Arguments where
  flags : RuleFlags := {}
  listen : Option String := none
  operands : List String := []
deriving DecidableEq

inductive Flag
  | rule
  | allow
  | deny
  | listen
  | defaultAllow
  | help
deriving DecidableEq

namespace Flag

def name : Flag → String
  | rule => "rule"
  | allow => "allow"
  | deny => "deny"
  | listen => "listen"
  | defaultAllow => "default-allow"
  | help => "help"

def takesValue : Flag → Bool
  | rule | allow | deny | listen => true
  | defaultAllow | help => false

end Flag

/-- An argument by its form. -/
inductive Argument
  | operand (text : String)
  | long (name : String) (value : Option String)
  | short (letters : List Char)
  | separator
deriving DecidableEq

/-- A lone `-` is an operand. -/
def Argument.ofString (s : String) : Argument :=
  match s.toList with
  | ['-', '-'] => separator
  | '-' :: '-' :: r =>
    match Text.cut '=' r with
    | some (n, v) => long (String.ofList n) (some (String.ofList v))
    | none => long (String.ofList r) none
  | ['-'] => operand s
  | '-' :: r => short r
  | _ => operand s

/-- What a command takes. -/
structure Signature where
  flags : List Flag
  takesOperands : Bool

namespace Arguments

/-- Rules and patterns may be given many times, the listen address once. -/
def putValue (a : Arguments) (v : String) : Flag → Except Command.Stop Arguments
  | .rule => .ok { a with flags := { a.flags with rules := a.flags.rules ++ [v] } }
  | .allow => .ok { a with flags := { a.flags with allow := a.flags.allow ++ [v] } }
  | .deny => .ok { a with flags := { a.flags with deny := a.flags.deny ++ [v] } }
  | .listen => if a.listen.isSome then .error .usage else .ok { a with listen := some v }
  | .defaultAllow | .help => .error .usage

def putFlag (a : Arguments) : Flag → Except Command.Stop Arguments
  | .defaultAllow =>
    if a.flags.defaultAllow then .error .usage
    else .ok { a with flags := { a.flags with defaultAllow := true } }
  | .help => .error .help
  | _ => .error .usage

/-- A command without operands refuses the first one it meets. -/
def putOperands (a : Arguments) (vs : List String) (takesOperands : Bool) :
    Except Command.Stop Arguments :=
  if takesOperands || vs.isEmpty then .ok { a with operands := a.operands ++ vs }
  else .error .usage

/-- Reads arguments from the left, for a command with this signature. A flag that still waits for
its value takes the next argument or fails. -/
def read (takes : Signature) (waiting : Option Flag) (a : Arguments) :
    List String → Except Command.Stop Arguments
  | [] => if waiting.isSome then .error .usage else .ok a
  | s :: rest =>
    match waiting, Argument.ofString s with
    | some f, .operand v => (a.putValue v f).bind fun a => read takes none a rest
    | some _, _ => .error .usage
    | none, .separator => a.putOperands rest takes.takesOperands
    | none, .operand v =>
      (a.putOperands [v] takes.takesOperands).bind fun a => read takes none a rest
    | none, .short ('h' :: _) => .error .help
    | none, .short _ => .error .usage
    | none, .long n value =>
      match takes.flags.find? (·.name == n), value with
      | none, _ => .error .usage
      | some f, some v => (a.putValue v f).bind fun a => read takes none a rest
      | some f, none =>
        if f.takesValue then read takes (some f) a rest
        else (a.putFlag f).bind fun a => read takes none a rest

end Arguments

namespace Command

def commonFlags : List Flag := [.rule, .allow, .deny, .defaultAllow, .help]

def checkSignature : Signature := { flags := commonFlags, takesOperands := true }

def serveSignature : Signature := { flags := .listen :: commonFlags, takesOperands := false }

/-- What help can be asked about. -/
def names : List String := ["check", "serve", "help"]

/-- `check` needs an address. -/
def read : List String → Except Stop Command
  | "check" :: args => do
    let a ← Arguments.read checkSignature none {} args
    if a.operands.isEmpty then .error .usage else return check a.flags a.operands
  | "serve" :: args => do
    let a ← Arguments.read serveSignature none {} args
    return serve a.flags a.listen
  | "help" :: args =>
    match args with
    | [] => .error .help
    | [name] => .error (if name ∈ names then .help else .usage)
    | _ => .error .usage
  | s :: _ =>
    match Argument.ofString s with
    | .long "version" none | .short ('V' :: _) => .error .version
    | .long "help" none | .short ('h' :: _) => .error .help
    | _ => .error .usage
  | [] => .error .usage

/-- What is left to do when a command has come to its end, or to the point where it listens. -/
inductive Effect
  /-- `err` is the message of a failure. On the error stream it stands behind the log. -/
  | finish (code : UInt32) (out err : String)
  | usage
  | help
  /-- Listen on the endpoint and guard it by the policy. -/
  | listen (endpoint : Endpoint) (policy : Policy)

/-- A command carried out: what it has reported, and what is left to do. -/
structure Run where
  events : List Event := []
  effect : Effect

/-- The log on the error stream at its default level, time stamps and origins aside. -/
def Run.log (r : Run) : List String :=
  (r.events.filter fun e => e.level = .info ∨ e.level = .warn).map Event.line

/-- The line that a failure leaves on the error stream. -/
def failureText (message : String) : String := s!"Error: {message}\n"

def versionText : String := "peerguard 0.1.0\n"

/-- The exit code says whether all addresses are allowed. -/
def run (lookup : Lookup) : Command → Run
  | check flags addresses =>
    let c := runCheck flags addresses
    let effect := match c.result with
      | .ok allAllowed => .finish (if allAllowed then 0 else 1) c.printed.text ""
      | .error e => .finish 2 c.printed.text (failureText e.message)
    { events := c.events, effect }
  | serve flags listen =>
    let p := prepare flags listen lookup
    let effect := match p.result with
      | .ok (e, policy) => .listen e policy
      | .error e => .finish 2 "" (failureText e.fullMessage)
    { events := p.events, effect }

/-- The program from its arguments and the environment to its end, or till it listens. -/
def start (args : List String) (lookup : Lookup) : Run :=
  match read args with
  | .ok c => c.run lookup
  | .error .version => { effect := .finish 0 versionText "" }
  | .error .help => { effect := .help }
  | .error .usage => { effect := .usage }

/-- How the program ends; its log is in `start`. -/
def main (args : List String) (lookup : Lookup) : Effect := (start args lookup).effect

end Command

end PeerAccess
