import PeerAccess.Declaration

/-!
# Policies

An ordered list of rules and a verdict for everybody else. The first rule that accepts an address
decides, so the order of rules is the only precedence there is.
-/

namespace PeerAccess

structure Policy where
  rules : List Rule := []
  defaultAllow : Bool := false
deriving DecidableEq

namespace Policy

/-- Every entry compiles, or there is no policy. -/
def ofDeclaration (d : Declaration) : Except PatternError Policy :=
  d.compile.map fun rules => { rules, defaultAllow := d.defaultAllow }

/-- The policy written down again, with the pattern texts that its rules were made from. -/
def toDeclaration (p : Policy) : Declaration where
  defaultAllow := p.defaultAllow
  entries := p.rules.map fun r => { action := r.action, pattern := r.pattern }

/-- The rule that decides on `x`. -/
def decider (p : Policy) (x : Octets) : Option Rule := p.rules.find? (·.accepts x)

/-- The verdict on an address given as octets; of a length that no rule has, it is the default. -/
def allows (p : Policy) (x : Octets) : Bool :=
  match p.decider x with
  | some r => r.verdict
  | none => p.defaultAllow

/-- Deciding on `x` reports the rule that decided. -/
def decisionEvents (p : Policy) (x : Octets) : List Event :=
  ((p.decider x).map fun r => Event.ruleMatched x r).toList

/-- The verdict on a peer; mapped addresses are judged as IPv4. -/
def admits (p : Policy) (ip : Ip) : Bool := p.allows ip.canonical.octets

def admissionEvents (p : Policy) (ip : Ip) : List Event := p.decisionEvents ip.canonical.octets

def append (p : Policy) (rules : List Rule) : Policy := { p with rules := p.rules ++ rules }

def replace (p : Policy) (rules : List Rule) : Policy := { p with rules := rules }

/-- No rules are left, and the default stays. -/
def clear (p : Policy) : Policy := p.replace []

def setDefault (p : Policy) (allow : Bool) : Policy := { p with defaultAllow := allow }

end Policy

end PeerAccess
