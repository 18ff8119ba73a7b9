import Echofront.Http
import Echofront.Text
import Mathlib.Data.Prod.Lex
import Mathlib.Order.Nat

/-!
# The router

`src/router.rs`: a route matches on an optional host and on a path prefix, and
the matching route with the longest prefix wins.  `max_by_key` of the standard
library returns the last of several maximal elements, so the fold below keeps
the later route on a tie.
-/

namespace Echofront

/-- `Route`. -/
structure Route where
  host : Option String
  pathPrefix : String
  service : String
deriving DecidableEq, Repr

/-- `path.split('?').next()`: the characters before the first `?`. -/
def pathHead (path : String) : List Char := path.toList.takeWhile (· ≠ '?')

/-- `path_prefix_matches`.  It reads the byte of the path right after the prefix. -/
def pathPrefixMatches (pre path : String) : Bool :=
  if pre = "/" then true
  else
    let head := pathHead path
    if !pre.toList.isPrefixOf head then false
    else
      match (asBytes (.ofList head))[(asBytes pre).length]? with
      | none => true
      | some c => if c = 0x2F then true else pre.toList.getLast? == some '/'

namespace Route

/-- `Route::new` stores the host in lower case. -/
def new (host : Option String) (pathPrefix service : String) : Route where
  host := host.map (fun h => String.ofList (h.toList.map Char.toLower))
  pathPrefix := pathPrefix
  service := service

def «matches» (r : Route) (req : Request) : Bool :=
  match r.host with
  | none => pathPrefixMatches r.pathPrefix req.path
  | some h =>
    match req.host with
    | some rh =>
      if eqIgnoreAsciiCase rh h then pathPrefixMatches r.pathPrefix req.path else false
    | none => false

/-- The key that `Router::route` maximizes: the byte length of the prefix, then
whether the route names a host (`false < true`). -/
def key (r : Route) : Nat × Bool := (r.pathPrefix.utf8ByteSize, r.host.isSome)

/-- The order of two keys, first component first. -/
def keyLe (a b : Nat × Bool) : Bool :=
  decide (a.1 < b.1) || (a.1 == b.1 && (!a.2 || b.2))

end Route

/-- `Router`. -/
structure Router where
  routes : List Route
deriving DecidableEq, Repr

namespace Router

/-- `Router::add`. -/
def add (t : Router) (r : Route) : Router := { t with routes := t.routes ++ [r] }

/-- One step of `max_by_key`. -/
def keepMax (best : Option Route) (r : Route) : Option Route :=
  match best with
  | none => some r
  | some b => if Route.keyLe b.key r.key then some r else some b

/-- The service for a request. -/
def route (t : Router) (req : Request) : Option String :=
  (((t.routes.filter (·.matches req)).foldl keepMax none)).map Route.service

end Router

end Echofront
