import PeerAccess.Policy.Basic
import PeerAccess.RuleFlags

/-!
# Checking addresses

One verdict per address, each on a line of its own. Rules and addresses are read before the first
verdict, and a line is printed as soon as its verdict is known.
-/

namespace PeerAccess

open Text

inductive CheckError
  | badFlags (error : FlagError)
  | badPattern (error : PatternError)
  | badAddress (raw : String)
deriving DecidableEq

def CheckError.message : CheckError → String
  | badFlags e => e.message
  | badPattern e => e.message
  | badAddress raw => s!"invalid address: \"{raw}\""

/-- An address as it was written, blanks around it aside, and whether it is allowed. -/
structure Judgement where
  address : String
  allowed : Bool
deriving DecidableEq

def Judgement.line (j : Judgement) : String := s!"{j.address} {(Action.ofVerdict j.allowed).word}\n"

abbrev Report := List Judgement

namespace Report

def text (r : Report) : String := String.join (r.map Judgement.line)

def allAllowed (r : Report) : Bool := r.all (·.allowed)

end Report

def readAddress (raw : String) : Except CheckError (String × Ip) :=
  match Ip.parse? (trimmed raw) with
  | some ip => .ok (trimmed raw, ip)
  | none => .error (.badAddress raw)

/-- Part of a check: what it comes to, the lines that it prints and what it reports. Lines stay
printed when an error follows. -/
structure Checking (α : Type) where
  result : Except CheckError α
  printed : Report := []
  events : List Event := []

namespace Checking

variable {α β : Type}

def ofExcept (r : Except CheckError α) (events : List Event := []) : Checking α :=
  { result := r, events }

def print (j : Judgement) : Checking Unit := { result := .ok (), printed := [j] }

/-- Nothing follows an error. -/
def bind (x : Checking α) (f : α → Checking β) : Checking β :=
  match x.result with
  | .ok a =>
    { result := (f a).result
      printed := x.printed ++ (f a).printed
      events := x.events ++ (f a).events }
  | .error e => { result := .error e, printed := x.printed, events := x.events }

instance : Monad Checking where
  pure a := ofExcept (.ok a)
  bind := bind

@[simp] theorem result_ofExcept (r : Except CheckError α) (events : List Event) :
    (ofExcept r events).result = r := rfl

@[simp] theorem printed_ofExcept (r : Except CheckError α) (events : List Event) :
    (ofExcept r events).printed = [] := rfl

@[simp] theorem events_ofExcept (r : Except CheckError α) (events : List Event) :
    (ofExcept r events).events = events := rfl

@[simp] theorem ofExcept_ok_bind (a : α) (events : List Event) (f : α → Checking β) :
    ofExcept (.ok a) events >>= f =
      { result := (f a).result, printed := (f a).printed, events := events ++ (f a).events } := rfl

@[simp] theorem ofExcept_error_bind (e : CheckError) (events : List Event) (f : α → Checking β) :
    ofExcept (.error e) events >>= f = ofExcept (.error e) events := rfl

end Checking

/-- Judges the addresses one after the other and prints a line for each. `soFar` says whether all
those before were allowed. -/
def judgeAll (p : Policy) (soFar : Bool) : List (String × Ip) → Checking Bool
  | [] => pure soFar
  | (address, ip) :: rest => do
    let allowed ← Checking.ofExcept (.ok (p.admits ip)) (p.admissionEvents ip)
    Checking.print { address, allowed }
    judgeAll p (soFar && allowed) rest

/-- Prints the verdicts of the flags' policy on the addresses and says whether all are allowed.
Patterns are compiled twice, once to check them and once for the policy. -/
def runCheck (flags : RuleFlags) (addresses : List String) : Checking Bool := do
  let d ← Checking.ofExcept (flags.toDeclaration.mapError .badFlags) flags.warnings
  let policy ← Checking.ofExcept ((Policy.ofDeclaration d).mapError .badPattern) d.warnings
  let ips ← Checking.ofExcept (addresses.mapM readAddress)
  judgeAll policy true ips

/-- What a check has printed, if nothing went wrong. -/
def check (flags : RuleFlags) (addresses : List String) : Except CheckError Report :=
  (runCheck flags addresses).result.map fun _ => (runCheck flags addresses).printed

end PeerAccess
