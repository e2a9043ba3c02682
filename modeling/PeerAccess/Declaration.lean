import PeerAccess.Event

/-!
# Declarations

A policy as it is written down: entries in order and the verdict on peers that no entry is about.
The patterns are text and nobody has checked them; `compile` does, up to the first bad one.
-/

namespace PeerAccess

structure Entry where
  action : Action
  pattern : String
deriving DecidableEq

namespace Entry

def compile (e : Entry) : Except PatternError Rule := Rule.compile e.action e.pattern

/-- Compiling an entry warns when its pattern is read but can match nothing. -/
def warnings (e : Entry) : List Event :=
  match Pattern.parse e.pattern with
  | .ok p => if p.hasHostBits then [.hostBits e.pattern] else []
  | .error _ => []

end Entry

structure Declaration where
  defaultAllow : Bool := false
  entries : List Entry := []
deriving DecidableEq

namespace Declaration

/-- The rules of the entries, or the error of the first entry that has one. -/
def compile (d : Declaration) : Except PatternError (List Rule) := d.entries.mapM Entry.compile

/-- The warnings of the entries that `compile` gets through. -/
def warnings (d : Declaration) : List Event :=
  (d.entries.takeWhile fun e => e.compile.isOk).flatMap Entry.warnings

def validate (d : Declaration) : Except PatternError Unit := d.compile.map fun _ => ()

/-- The entries that give these actions to these patterns. -/
def entriesFor (action : Action) (patterns : List String) : List Entry :=
  patterns.map fun p => ⟨action, p⟩

end Declaration

end PeerAccess
