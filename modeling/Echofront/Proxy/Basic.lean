import Echofront.Pool.Quarantine
import Echofront.Retry
import Echofront.Router
import Mathlib.Logic.Function.Basic

/-!
# The proxy

`Proxy` of `src/proxy.rs` and its retry loop.

What the proxy reads from outside is an input of the call: the time, and the
reply of the upstream of each backend of the pool that is called.  One call asks
a backend at most once, so one reply for each backend is enough.

The loop of `Proxy::handle` has no bound of its own.  `loop` takes fuel;
`Echofront.Proxy.Loop` proves that one turn for each backend and one more are
always enough, and that more fuel changes nothing.
-/

namespace Echofront

/-- `ProxyError`. -/
inductive ProxyError where
  | noRoute
  | noHealthyUpstream
  | allAttemptsFailed (n : Nat)
deriving DecidableEq, Repr

/-- `Attempt`. -/
structure Attempt where
  backend : Nat
  backendName : String
  ok : Bool
  detail : String
  latencyMs : Nat
  isRetry : Bool
deriving DecidableEq, Repr

/-- `HandleResult`. -/
structure HandleResult where
  service : Option String
  selected : Option Nat
  response : Except ProxyError Response
  attempts : List Attempt

/-- The locals of the loop of `Proxy::handle`, with the parts of the proxy that
it updates. -/
structure HandleLoop where
  pool : Pool
  budget : RetryBudget
  totalRetries : Nat
  totalFailovers : Nat
  attempts : List Attempt
  tried : List Nat
  firstSelected : Option Nat
  attemptNo : Nat

/-- How a turn of the loop ends. -/
inductive Turn where
  | finished (response : Except ProxyError Response) (s : HandleLoop)
  | again (s : HandleLoop)

/-- The inputs of the loop. -/
structure Call where
  now : Nat
  key : Option String
  maxRetries : Nat
  replies : Nat → UpstreamReply

namespace HandleLoop

/-- The error when no backend is selected. -/
def unselected (s : HandleLoop) : ProxyError :=
  if s.attempts.isEmpty then .noHealthyUpstream else .allAttemptsFailed s.attemptNo

/-- The selected backend is asked. -/
def ask (s : HandleLoop) (idx : Nat) : HandleLoop :=
  { s with
    firstSelected := if s.firstSelected = none then some idx else s.firstSelected
    totalFailovers := if 0 < s.attemptNo then s.totalFailovers + 1 else s.totalFailovers
    pool := (s.pool.begin idx).endCall idx }

/-- The entry of an attempt. -/
def attempt (s : HandleLoop) (idx : Nat) (ok : Bool) (detail : String) (latencyMs : Nat) :
    Attempt where
  backend := idx
  backendName := (s.pool.backend idx).name
  ok := ok
  detail := detail
  latencyMs := latencyMs
  isRetry := decide (0 < s.attemptNo)

/-- The `Ok` arm. -/
def succeed (s : HandleLoop) (now idx : Nat) (resp : Response) (latencyMs : Nat) :
    HandleLoop :=
  { s with
    pool := s.pool.recordSuccessLatency idx now latencyMs
    attempts := s.attempts ++ [s.attempt idx true (toString resp.status) latencyMs] }

/-- The `Err` arm, up to the test for a retry. -/
def fail (s : HandleLoop) (now idx : Nat) (e : UpstreamError) (latencyMs : Nat) :
    HandleLoop :=
  { s with
    pool := s.pool.recordFailure idx now
    attempts := s.attempts ++ [s.attempt idx false e.toText latencyMs]
    tried := s.tried ++ [idx]
    attemptNo := s.attemptNo + 1 }

/-- The test for a retry after a failure.  `try_retry` is not called when the
limit of the request is reached. -/
def retry (s : HandleLoop) (maxRetries : Nat) : Turn :=
  let failed := Except.error (ProxyError.allAttemptsFailed s.attemptNo)
  if maxRetries < s.attemptNo then .finished failed s
  else
    let (granted, budget) := s.budget.tryRetry
    let s := { s with budget := budget }
    if granted then .again { s with totalRetries := s.totalRetries + 1 }
    else .finished failed s

/-- One turn of the loop of `Proxy::handle`. -/
def turn (c : Call) (s : HandleLoop) : Turn :=
  match s.pool.select c.now c.key s.tried with
  | (none, pool) => .finished (.error s.unselected) { s with pool := pool }
  | (some idx, pool) =>
    let s := { s with pool := pool }.ask idx
    let reply := c.replies idx
    match reply.outcome with
    | .ok resp => .finished (.ok resp) (s.succeed c.now idx resp reply.latencyMs)
    | .error e => (s.fail c.now idx e reply.latencyMs).retry c.maxRetries

/-- The loop of `Proxy::handle`. -/
def loop (c : Call) : Nat → HandleLoop → Option (Except ProxyError Response × HandleLoop)
  | 0, _ => none
  | fuel + 1, s =>
    match s.turn c with
    | .finished response s => some (response, s)
    | .again s => loop c fuel s

end HandleLoop

/-- `Proxy`, without its clock. -/
structure Proxy where
  router : Router
  pools : String → Option Pool
  budget : RetryBudget
  stickyHeader : String
  totalRequests : Nat
  totalRetries : Nat
  totalFailovers : Nat

namespace Proxy

def new (router : Router) (retry : RetryConfig) : Proxy where
  router := router
  pools := fun _ => none
  budget := .new retry
  stickyHeader := "X-Session-Id"
  totalRequests := 0
  totalRetries := 0
  totalFailovers := 0

def setStickyHeader (px : Proxy) (header : String) : Proxy :=
  { px with stickyHeader := header }

/-- `self.pools.insert(name, pool)`. -/
def setPool (px : Proxy) (name : String) (pool : Pool) : Proxy :=
  { px with pools := Function.update px.pools name (some pool) }

def addPool (px : Proxy) (pool : Pool) : Proxy := px.setPool pool.name pool

/-- `probe name i` is the reply of the upstream of backend `i` of that pool, if
it is probed. -/
def runHealthChecks (px : Proxy) (now : Nat) (probe : String → Nat → Bool) : Proxy :=
  { px with pools := fun name => (px.pools name).map (·.runHealthChecks now (probe name)) }

def stickyKey (px : Proxy) (req : Request) : Option String :=
  (req.header px.stickyHeader).or req.host

/-- What `Proxy::handle` does before it routes. -/
def arrive (px : Proxy) : Proxy :=
  { px with totalRequests := px.totalRequests + 1, budget := px.budget.onRequest }

/-- The inputs of the loop for a request. -/
def callOf (px : Proxy) (now : Nat) (req : Request) (replies : Nat → UpstreamReply) :
    Call where
  now := now
  key := px.stickyKey req
  maxRetries := px.budget.maxRetriesPerRequest
  replies := replies

/-- The locals at the start of the loop. -/
def start (px : Proxy) (pool : Pool) (now : Nat) : HandleLoop where
  pool := pool.poll now
  budget := px.budget
  totalRetries := px.totalRetries
  totalFailovers := px.totalFailovers
  attempts := []
  tried := []
  firstSelected := none
  attemptNo := 0

/-- The proxy after the loop has worked on the pool of `service`. -/
def finish (px : Proxy) (service : String) (s : HandleLoop) : Proxy :=
  { px.setPool service s.pool with
    budget := s.budget
    totalRetries := s.totalRetries
    totalFailovers := s.totalFailovers }

/-- The result when the request has no pool. -/
def unrouted (service : Option String) : HandleResult where
  service := service
  selected := none
  response := .error .noRoute
  attempts := []

/-- `Proxy::handle`. -/
def handle (px : Proxy) (now : Nat) (req : Request) (replies : Nat → UpstreamReply) :
    Option (HandleResult × Proxy) :=
  let px := px.arrive
  match px.router.route req with
  | none => some (unrouted none, px)
  | some service =>
    match px.pools service with
    | none => some (unrouted (some service), px)
    | some pool =>
      match HandleLoop.loop (px.callOf now req replies) (pool.backends.length + 1)
          (px.start pool now) with
      | none => none
      | some (response, s) =>
        some ({ service := some service
                selected := s.firstSelected
                response := response
                attempts := s.attempts }, px.finish service s)

end Proxy

end Echofront
