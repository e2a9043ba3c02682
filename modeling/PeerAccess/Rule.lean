import PeerAccess.Pattern.Basic

/-!
# Rules

A rule lets peers in or keeps them out. It keeps the text of its pattern, for lists and logs, beside
the matcher that the text compiled to.
-/

namespace PeerAccess

inductive Action
  | allow
  | deny
deriving DecidableEq

namespace Action

def word : Action → String
  | allow => "allow"
  | deny => "deny"

def ofWord? : String → Option Action
  | "allow" => some allow
  | "deny" => some deny
  | _ => none

/-- The action that gives this verdict. -/
def ofVerdict (allowed : Bool) : Action := if allowed then allow else deny

def isDeny : Action → Bool
  | allow => false
  | deny => true

end Action

structure Rule where
  action : Action
  pattern : String
  matcher : Matcher
deriving DecidableEq

namespace Rule

def accepts (r : Rule) (x : Octets) : Bool := r.matcher.accepts x

/-- The verdict on an address that the rule accepts. -/
def verdict (r : Rule) : Bool := !r.action.isDeny

def compile (action : Action) (pattern : String) : Except PatternError Rule :=
  (Pattern.parse pattern).map fun p => ⟨action, pattern, p.matcher⟩

instance : ToString Rule := ⟨fun r => s!"{r.action.word} {r.pattern}"⟩

/-- The rule with the form of its matcher, for diagnosis. -/
def describe (r : Rule) : String :=
  let form := match r.matcher with
    | .exact _ => "Exact"
    | .masked _ _ => "Prefix"
  s!"{form}\x7bdeny={r.action.isDeny}, pattern='{r.pattern}'\x7d"

end Rule

end PeerAccess
