/-!
# Request targets

A request names what it wants in one of four forms: a path, a full address, an authority alone, or
`*`. Only the path is of interest here; escapes and dots in it are left as they are.
-/

namespace PeerAccess.Http

/-- The path ends where a query or a fragment starts. -/
def isPathEnd (c : Char) : Bool := c == '?' || c == '#'

/-- What follows `://`, if the target has a scheme. -/
def afterScheme? : List Char → Option (List Char)
  | ':' :: '/' :: '/' :: r => some r
  | _ :: r => afterScheme? r
  | [] => none

/-- What follows the authority. -/
def afterAuthority (cs : List Char) : List Char := cs.dropWhile fun c => c != '/' && !isPathEnd c

def pathOf (cs : List Char) : List Char :=
  match cs with
  | '/' :: _ => cs.takeWhile (!isPathEnd ·)
  | ['*'] => ['*']
  | _ =>
    match afterScheme? cs with
    | none => []
    | some r =>
      match (afterAuthority r).takeWhile (!isPathEnd ·) with
      | [] => ['/']
      | path => path

/-- The path of a request target; an authority alone has none. -/
def targetPath (target : String) : String := String.ofList (pathOf target.toList)

end PeerAccess.Http
