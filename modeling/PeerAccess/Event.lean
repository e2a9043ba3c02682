import PeerAccess.Address.Endpoint
import PeerAccess.Rule

/-!
# Events

What the library reports while it works. Operations return their events in order; `Event.line` is
the line a log shows.
-/

namespace PeerAccess

inductive Event.Level
  | trace
  | debug
  | info
  | warn
deriving DecidableEq

inductive Event
  /-- A block with bits past its prefix was compiled. -/
  | hostBits (pattern : String)
  | ruleAdded (rule : Rule)
  | rulesCleared
  | policyApplied (count : Nat) (defaultAllow : Bool)
  /-- An evaluation was decided by this rule. -/
  | ruleMatched (address : Octets) (rule : Rule)
  | peerRejected (peer : Ip) (method path : String)
  | listening (address : Endpoint)
  | listenerClosed
  | policyLoaded (count : Nat) (defaultAllow : Bool)
  | ruleLoaded (rule : Rule)
deriving DecidableEq

namespace Event

def Level.word : Level → String
  | trace => "TRACE"
  | debug => "DEBUG"
  | info => "INFO"
  | warn => "WARN"

def level : Event → Level
  | hostBits _ => .warn
  | ruleAdded _ | peerRejected _ _ _ | ruleLoaded _ => .debug
  | rulesCleared | policyApplied _ _ | listening _ | listenerClosed | policyLoaded _ _ => .info
  | ruleMatched _ _ => .trace

def octetsText (os : Octets) : String := "[" ++ ", ".intercalate (os.map toString) ++ "]"

def defaultText (defaultAllow : Bool) : String := (Action.ofVerdict defaultAllow).word

def text : Event → String
  | hostBits p => s!"Peer pattern '{p}' has host bits set past its prefix and will never match"
  | ruleAdded r => s!"ACL rule added: {r}"
  | rulesCleared => "ACL rules cleared"
  | policyApplied n d => s!"Applying ACL configuration: {n} rule(s), default {defaultText d}"
  | ruleMatched x r => s!"Peer {octetsText x} matched rule {r}"
  | peerRejected ip method path => s!"Peer {ip} rejected: {method} {path}"
  | listening e => s!"Peerguard listening on http://{e}"
  | listenerClosed => "Peerguard listener shutting down"
  | policyLoaded n d => s!"Loaded {n} rule(s), default {defaultText d}"
  | ruleLoaded r => s!"  {r}"

def line (e : Event) : String := s!"{e.level.word} {e.text}"

end Event

end PeerAccess
