/-!
Targets of requests: a path with a query after it, or a whole address, in which
a scheme and an authority stand before the path.
-/

namespace RoughCut.Web.Target

/-- Whether a character ends the authority of an address, where its host is named. -/
def endsAuthority (c : Char) : Bool :=
  c == '/' || c == '?' || c == '#'

/-- Whether a character ends a path. A query or a fragment follows it. -/
def endsPath (c : Char) : Bool :=
  c == '?' || c == '#'

/-- What follows the scheme and the authority of an address, if it has a scheme. -/
def afterAuthority? (address : List Char) : Option (List Char) :=
  match address.dropWhile (· != ':') with
  | ':' :: '/' :: '/' :: s => some (s.dropWhile (!endsAuthority ·))
  | _ => none

/-- The path of a target, if it has one. A target that does not start with its
path is an address. -/
def path? (target : String) : Option String :=
  let s := target.toList
  (if s.head? = some '/' then some s else afterAuthority? s).map fun s =>
    String.ofList (s.takeWhile (!endsPath ·))

end RoughCut.Web.Target
