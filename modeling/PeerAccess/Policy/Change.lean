import PeerAccess.Policy.Basic

/-!
# Changes

A policy in use is changed step by step. A change either happens as a whole or, when a pattern is
bad, leaves the policy as it was; only a chain keeps what it had added before the bad one.
-/

namespace PeerAccess

inductive Change
  | add (entry : Entry)
  /-- One entry after the other, up to the first that fails. -/
  | addChain (entries : List Entry)
  | clear
  | setDefault (allow : Bool)
  /-- Rules and default are exchanged together. -/
  | apply (declaration : Declaration)
deriving DecidableEq

/-- What a change leaves behind. -/
structure Outcome where
  policy : Policy
  error : Option PatternError := none
  events : List Event := []
deriving DecidableEq

namespace Policy

def add (p : Policy) (e : Entry) : Outcome :=
  match e.compile with
  | .ok r => { policy := p.append [r], events := e.warnings ++ [.ruleAdded r] }
  | .error err => { policy := p, error := some err }

def addChain (p : Policy) : List Entry → Outcome
  | [] => { policy := p }
  | e :: es =>
    let first := p.add e
    match first.error with
    | some _ => first
    | none =>
      let rest := first.policy.addChain es
      { rest with events := first.events ++ rest.events }

section
variable {p : Policy} {e : Entry}

theorem addChain_of_error {err : PatternError} (h : (p.add e).error = some err)
    (es : List Entry) : p.addChain (e :: es) = p.add e := by
  show (match (p.add e).error with
    | some _ => p.add e
    | none => _) = p.add e
  rw [h]

theorem addChain_of_no_error (h : (p.add e).error = none) (es : List Entry) :
    p.addChain (e :: es) =
      { (p.add e).policy.addChain es with
        events := (p.add e).events ++ ((p.add e).policy.addChain es).events } := by
  show (match (p.add e).error with
    | some _ => _
    | none =>
      { (p.add e).policy.addChain es with
        events := (p.add e).events ++ ((p.add e).policy.addChain es).events }) = _
  rw [h]

end

def apply (p : Policy) (d : Declaration) : Outcome :=
  match d.compile with
  | .ok rules =>
    { policy := { rules, defaultAllow := d.defaultAllow }
      events := d.warnings ++ [.policyApplied rules.length d.defaultAllow] }
  | .error err => { policy := p, error := some err, events := d.warnings }

def change (p : Policy) : Change → Outcome
  | .add e => p.add e
  | .addChain es => p.addChain es
  | .clear => { policy := p.clear, events := [.rulesCleared] }
  | .setDefault allow => { policy := p.setDefault allow }
  | .apply d => p.apply d

/-- The policy after a history of changes, failed ones among them. -/
def after (p : Policy) (cs : List Change) : Policy :=
  cs.foldl (fun p c => (p.change c).policy) p

end Policy

end PeerAccess
