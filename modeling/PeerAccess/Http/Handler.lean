import PeerAccess.Policy.Change

/-!
# Handlers

A handler turns a request into a response. A guard is a handler that asks a policy about the peer
and hands the request on, to one side if the peer is admitted and to the other if not; either side
may be a guard again. Policies stand outside of the tree under names, so that guards can share one
and a policy can change between requests.
-/

namespace PeerAccess.Http

structure Request where
  method : String
  path : String
  peer : Endpoint
deriving DecidableEq

structure Response where
  status : Nat
  body : String := ""
deriving DecidableEq

/-- A tree of guards; `κ` names their policies, and `α` are the handlers that are no guards. -/
inductive Handler (κ α : Type)
  | leaf (handler : α)
  | guard (gate : κ) (next rejection : Handler κ α)
deriving DecidableEq

/-- How a request was handled: by whom, and what was reported on the way. -/
structure Handling (α : Type) where
  response : Response
  calls : List (α × Request)
  events : List Event := []
deriving DecidableEq

namespace Handler

variable {κ α : Type}

/-- Where a peer ends up: the next side of each guard that admits it, the rejection of the
others. -/
def route (policies : κ → Policy) : Handler κ α → Ip → α
  | leaf a, _ => a
  | guard gate next rejection, peer =>
    if (policies gate).admits peer then route policies next peer else route policies rejection peer

/-- `answer` is what the handlers that are no guards do. -/
def handle (policies : κ → Policy) (answer : α → Request → Response) :
    Handler κ α → Request → Handling α
  | leaf a, r => { response := answer a r, calls := [(a, r)] }
  | guard gate next rejection, r =>
    let policy := policies gate
    let asked := policy.admissionEvents r.peer.ip
    if policy.admits r.peer.ip then
      let h := handle policies answer next r
      { h with events := asked ++ h.events }
    else
      let h := handle policies answer rejection r
      { h with events := asked ++ .peerRejected r.peer.ip r.method r.path :: h.events }

end Handler

/-- The handlers that guards lead to. -/
inductive Responder
  /-- This status and an empty body. -/
  | status (code : Nat)
  /-- Status 200 and a body made from the request. -/
  | page (body : Request → String)

namespace Responder

def notFound : Responder := status 404

def forbidden : Responder := status 403

def answer : Responder → Request → Response
  | status code, _ => { status := code }
  | page body, r => { status := 200, body := body r }

end Responder

/-- Nothing is behind a guard until somebody puts it there. -/
def Handler.defaultNext {κ : Type} : Handler κ Responder := .leaf .notFound

def Handler.defaultRejection {κ : Type} : Handler κ Responder := .leaf .forbidden

end PeerAccess.Http
