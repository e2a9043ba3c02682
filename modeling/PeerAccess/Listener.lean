import PeerAccess.Http.Connection
import PeerAccess.Serve

/-!
# Listeners

A guarded listener and the clients that use it, step by step. Whether clients can reach it at all is
a property of the link between them; policies change without any.
-/

namespace PeerAccess

open Http

/-- Whether a client can reach the listener. -/
inductive Link
  | up
  | down
deriving DecidableEq

/-- A connection that a client holds under a name, with the replies it has not read yet. -/
structure Client where
  name : String
  connection : Connection
  inbox : List Reply := []
deriving DecidableEq

/-- `κ` names the policies of the handlers, and `gate` is the outermost. -/
structure Listener (κ : Type) where
  handler : Handler κ Responder
  policies : κ → Policy
  gate : κ
  accepting : Bool := true
  clients : List Client := []

inductive Listener.Step
  /-- A new connection from `peer`, under a name. -/
  | connect (name : String) (peer : Endpoint)
  /-- Octets on a new connection; the client reads all replies. -/
  | sendOnce (peer : Endpoint) (octets : List Char)
  /-- Octets on a named connection; the client reads `count` replies. -/
  | send (name : String) (count : Nat) (octets : List Char)
  | hangUp (name : String)
  /-- No more connections are accepted; those that are open go on. -/
  | shutDown
  | change (change : Change)

inductive Listener.Result
  | done
  | wasOpen (value : Bool)
  /-- The replies that were read; `closed` where the server ended the connection before. -/
  | replies (list : List Reply) (closed : Bool)
  | changed (outcome : Outcome)
  | refused
  | noConnection
  | failed (cause : SystemError)

namespace Listener

variable {κ : Type} [DecidableEq κ]

def serve (l : Listener κ) (r : Request) : Handling Responder :=
  l.handler.handle l.policies Responder.answer r

def policy (l : Listener κ) : Policy := l.policies l.gate

def setPolicy (l : Listener κ) (p : Policy) : Listener κ :=
  { l with policies := fun k => if k = l.gate then p else l.policies k }

def client? (l : Listener κ) (name : String) : Option Client := l.clients.find? (·.name == name)

def without (l : Listener κ) (name : String) : Listener κ :=
  { l with clients := l.clients.filter (·.name != name) }

def put (l : Listener κ) (c : Client) : Listener κ :=
  { l.without c.name with clients := c :: (l.without c.name).clients }

/-- Why a new connection cannot be made. -/
def obstacle? (link : Link) (l : Listener κ) : Option Result :=
  match link, l.accepting with
  | .down, _ => some (.failed .networkUnreachable)
  | .up, false => some .refused
  | .up, true => none

def step (link : Link) (l : Listener κ) : Step → Listener κ × Result × List Event
  | .connect name peer =>
    match l.obstacle? link with
    | some r => (l, r, [])
    | none => (l.put { name, connection := { peer } }, .done, [])
  | .sendOnce peer octets =>
    match l.obstacle? link with
    | some r => (l, r, [])
    | none =>
      let c : Connection := { peer }
      let reaction := c.receive l.serve octets
      (l, .replies reaction.replies true, reaction.events)
  | .send name count octets =>
    match l.client? name with
    | none => (l, .noConnection, [])
    | some c =>
      let reaction := c.connection.receive l.serve octets
      let inbox := c.inbox ++ reaction.replies
      let closed := !reaction.connection.isOpen && inbox.length < count
      (l.put { c with connection := reaction.connection, inbox := inbox.drop count },
        .replies (inbox.take count) closed, reaction.events)
  | .hangUp name => (l.without name, .wasOpen (l.client? name).isSome, [])
  | .shutDown => ({ l with accepting := false }, .done, [.listenerClosed])
  | .change c =>
    let o := l.policy.change c
    (l.setPolicy o.policy, .changed o, o.events)

end Listener

/-- What `serve` puts behind its guard. -/
def servedPage : Responder := .page fun _ => "ok"

/-- The listener that `serve` runs. -/
def Listener.serving (p : Policy) : Listener Unit where
  handler := .guard () (.leaf servedPage) Handler.defaultRejection
  policies := fun _ => p
  gate := ()

end PeerAccess
