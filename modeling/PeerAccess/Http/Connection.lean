import PeerAccess.Http.Reply

/-!
# Connections

What a server keeps about a client: its endpoint, the octets that have come and make no message yet,
and whether more may come. Messages are answered in the order in which they came, and nothing after
the one that closes the connection.
-/

namespace PeerAccess.Http

structure Connection where
  peer : Endpoint
  unread : List Char := []
  isOpen : Bool := true
deriving DecidableEq

/-- What a server does with what it received. -/
structure Reaction where
  connection : Connection
  replies : List Reply := []
  events : List Event := []
deriving DecidableEq

/-- A message as the handlers see it. -/
def Message.request (m : Message) (peer : Endpoint) : Request where
  method := String.ofList m.method
  path := String.ofList (pathOf m.target)
  peer := peer

namespace Connection

variable {α : Type}

/-- Answers the messages that have arrived in full. Every message takes one unit of fuel. -/
def answerAll (serve : Request → Handling α) : Nat → Connection → Reaction
  | 0, c => { connection := c }
  | fuel + 1, c =>
    if !c.isOpen then { connection := c }
    else
      match Incoming.read c.unread with
      | .unfinished => { connection := c }
      | .malformed =>
        { connection := { c with unread := [], isOpen := false }, replies := [Reply.badRequest] }
      | .complete m rest =>
        let h := serve (m.request c.peer)
        let reply := Reply.answering m h.response
        let next := answerAll serve fuel
          { c with unread := if m.keepsAlive then rest else [], isOpen := m.keepsAlive }
        { next with replies := reply :: next.replies, events := h.events ++ next.events }

/-- A message has at least one octet, so there are no more messages than octets. What arrives on a
closed connection is not looked at. -/
def receive (serve : Request → Handling α) (c : Connection) (octets : List Char) : Reaction :=
  if c.isOpen then
    let c := { c with unread := c.unread ++ octets }
    answerAll serve c.unread.length c
  else { connection := c }

end Connection

end PeerAccess.Http
