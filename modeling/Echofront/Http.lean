import Mathlib.Data.List.Basic

/-!
# Requests, responses and upstreams

The parts of `src/http.rs` and `src/upstream.rs` that the proxy reads: the
request with its header lookup, the response, and the reply of an upstream.
A Rust string is a sequence of Unicode scalar values, and so is a Lean
`String`; the functions below read it through `toList`.
-/

namespace Echofront

/-- `Method`. -/
inductive Method where
  | get
  | post
  | put
  | delete
  | patch
  | head
  | options
  | other (s : String)
deriving DecidableEq, Repr

/-- `Method::is_idempotent`. -/
def Method.isIdempotent : Method → Bool
  | .get | .head | .put | .delete | .options => true
  | .post | .patch | .other _ => false

/-- `Request`. -/
structure Request where
  method : Method
  path : String
  version : String
  headers : List (String × String)
  body : List UInt8
deriving DecidableEq, Repr

/-- `str::eq_ignore_ascii_case`. -/
def eqIgnoreAsciiCase (a b : String) : Bool :=
  a.toList.map Char.toLower == b.toList.map Char.toLower

namespace Request

def new (method : Method) (path : String) : Request where
  method := method
  path := path
  version := "HTTP/1.1"
  headers := []
  body := []

/-- The first header of that name. -/
def header (req : Request) (name : String) : Option String :=
  (req.headers.find? (fun h => eqIgnoreAsciiCase h.1 name)).map Prod.snd

def host (req : Request) : Option String := req.header "Host"

end Request

/-- `Response`. -/
structure Response where
  status : Nat
  reason : String
  headers : List (String × String)
  body : List UInt8
deriving DecidableEq, Repr

def reasonPhrase : Nat → String
  | 200 => "OK"
  | 201 => "Created"
  | 204 => "No Content"
  | 301 => "Moved Permanently"
  | 302 => "Found"
  | 304 => "Not Modified"
  | 400 => "Bad Request"
  | 401 => "Unauthorized"
  | 403 => "Forbidden"
  | 404 => "Not Found"
  | 429 => "Too Many Requests"
  | 500 => "Internal Server Error"
  | 502 => "Bad Gateway"
  | 503 => "Service Unavailable"
  | 504 => "Gateway Timeout"
  | _ => "Unknown"

def Response.new (status : Nat) : Response where
  status := status
  reason := reasonPhrase status
  headers := []
  body := []

/-- `UpstreamError`. -/
inductive UpstreamError where
  | timeout
  | connection
  | serverError (status : Nat)
deriving DecidableEq, Repr

/-- The `Display` text of an upstream error. -/
def UpstreamError.toText : UpstreamError → String
  | .timeout => "timeout"
  | .connection => "connection refused"
  | .serverError s => "server error " ++ toString s

/-- `UpstreamReply`. -/
structure UpstreamReply where
  outcome : Except UpstreamError Response
  latencyMs : Nat

/-- `UpstreamReply::is_ok`. -/
def UpstreamReply.isOk (r : UpstreamReply) : Bool :=
  match r.outcome with
  | .ok _ => true
  | .error _ => false

end Echofront
