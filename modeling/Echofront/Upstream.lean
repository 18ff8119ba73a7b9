import Echofront.Http
import Echofront.Text

/-!
# Upstreams

`src/upstream.rs`, and what the proxy reads of `src/clock.rs`.

An upstream answers requests and health probes and may change its state each time.
`Outside` is all that a proxy reads from outside, in a world of type `σ`: the clock and
the upstream of every backend.  The trait objects of the source may share state, so one
world stands for all of them.

`MockUpstream` is the scripted upstream of the source, and `Mocks` is the world in which
every backend has one.
-/

namespace Echofront

/-! ## The trait -/

/-- `Request::probe`. -/
def Request.probe : Request := .new .head "/healthz"

/-- `Response::is_server_error`. -/
def Response.isServerError (r : Response) : Bool := decide (500 ≤ r.status)

/-- `Response::with_body`. -/
def Response.withBody (r : Response) (body : List UInt8) : Response := { r with body := body }

/-- `Upstream::probe`, where an upstream does not define its own. -/
def probeBySend {σ : Type*} (send : Request → σ → UpstreamReply × σ) (w : σ) : Bool × σ :=
  match send .probe w with
  | (reply, w) =>
    match reply.outcome with
    | .ok r => (!r.isServerError, w)
    | .error _ => (false, w)

/-- The outside of a proxy: `Clock::now_millis`, and `Upstream::send` and
`Upstream::probe` of the upstream of each backend of each service. -/
structure Outside (σ : Type*) where
  nowMillis : σ → Nat
  send : String → Nat → Request → σ → UpstreamReply × σ
  probe : String → Nat → σ → Bool × σ

/-- The outside of upstreams that only define `send`. -/
def Outside.ofSend {σ : Type*} (nowMillis : σ → Nat)
    (send : String → Nat → Request → σ → UpstreamReply × σ) : Outside σ where
  nowMillis := nowMillis
  send := send
  probe service idx := probeBySend (send service idx)

/-! ## The mock -/

/-- `Step`. -/
structure Step where
  outcome : Except UpstreamError Nat
  latencyMs : Nat

namespace Step

def ok (status : Nat) : Step := ⟨.ok status, 5⟩

def fail (err : UpstreamError) : Step := ⟨.error err, 5⟩

/-- What `MockUpstream::send` makes of a step. -/
def reply (name : String) (step : Step) : UpstreamReply where
  outcome := match step.outcome with
    | .ok status =>
      if 500 ≤ status then .error (.serverError status)
      else .ok ((Response.new status).withBody (asBytes name))
    | .error e => .error e
  latencyMs := step.latencyMs

end Step

/-- `MockUpstream`. -/
structure MockUpstream where
  name : String
  script : List Step
  default : Step
  probes : List Bool
  probeDefault : Bool
  calls : Nat
  probeCalls : Nat

namespace MockUpstream

def new (name : String) : MockUpstream where
  name := name
  script := []
  default := .ok 200
  probes := []
  probeDefault := true
  calls := 0
  probeCalls := 0

def pushMany (m : MockUpstream) (steps : List Step) : MockUpstream :=
  { m with script := m.script ++ steps }

/-- The front of the queue is popped, and the default repeats for ever. -/
def nextStep (m : MockUpstream) : Step × MockUpstream :=
  match m.script with
  | [] => (m.default, m)
  | step :: script => (step, { m with script := script })

def send (m : MockUpstream) (_ : Request) : UpstreamReply × MockUpstream :=
  let m := { m with calls := m.calls + 1 }
  let (step, m) := m.nextStep
  (step.reply m.name, m)

def probe (m : MockUpstream) : Bool × MockUpstream :=
  let m := { m with probeCalls := m.probeCalls + 1 }
  match m.probes with
  | [] => (m.probeDefault, m)
  | live :: probes => (live, { m with probes := probes })

end MockUpstream

/-- A world of mocks, at the time `now` of a `ManualClock`. -/
structure Mocks where
  now : Nat
  mock : String → Nat → MockUpstream

namespace Mocks

/-- An update of one mock. -/
def setMock (w : Mocks) (service : String) (idx : Nat) (m : MockUpstream) : Mocks :=
  { w with mock := fun s i => if s = service ∧ i = idx then m else w.mock s i }

/-- Each backend has a mock of its own. -/
def outside : Outside Mocks where
  nowMillis w := w.now
  send service idx req w :=
    let (reply, m) := (w.mock service idx).send req
    (reply, w.setMock service idx m)
  probe service idx w :=
    let (live, m) := (w.mock service idx).probe
    (live, w.setMock service idx m)

end Mocks

end Echofront
