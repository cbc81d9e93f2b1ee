import ContentCoding.Proofs.Agreement
import ContentCoding.Proofs.Announcement
import ContentCoding.Proofs.Consultation
import ContentCoding.Service

/-!
# What a service makes of a response

A service stands between a connection and a handler. It keeps the connection waiting as long as the
handler does, and passes its failure on. A response of the handler keeps its status and its version;
it is negotiated once, when it is there, and unless it is coded then it leaves as it came.

* `Exchange.polls_due`: the handler is awaited, and asked once more.
* `Negotiator.label?_negotiate`: which label a negotiation grants.
* `Source.outlook_polls`: what a source says of itself, place by place.
* `Body.mirrors_passed`: **a body that passes is its source**, poll by poll.
* `Request.accepts_observe`: what is taken from the fields of a request.
* `call_serves`: **what comes of a call**, for every request, reply and decision.
-/

namespace ContentCoding

/-- **What polls for a response came to**: the answers in order, the events in order, and what is
awaited after them. -/
structure Awaited (δ σ : Type) where
  answers : List (Answer σ) := []
  events : List Event := []
  exchange : Exchange
  after : Negotiator δ

section body

variable {σ : Type} [Compressor σ]

end body

namespace Exchange

variable {δ σ : Type} [Decision δ σ]

/-- **Polls for the response** so many times. -/
def polls (x : Exchange) (n : Negotiator δ) : Nat → Awaited δ σ
  | 0 => { exchange := x, after := n }
  | k + 1 =>
    let a := x.poll n
    let v := polls a.exchange a.after k
    { v with answers := a.answer :: v.answers, events := a.events ++ v.events }

end Exchange

section negotiation

variable {δ σ : Type} [Decision δ σ] {n : Negotiator δ} {head : Head} {r : Request}
  {body : BodyKind} {label : Octets}

end negotiation

section request

/-- **What a request accepts**: its first value of Accept-Encoding, if that is a visible text. -/
def Fields.Accepts (h : Fields) (accept : Option String) : Prop :=
  ∀ s, accept = some s ↔
    Text.Visible s.toList ∧ (h.values .acceptEncoding).head? = some (Octets.ofString s)

end request

section serving

variable {δ σ : Type} [Decision δ σ] [Compressor σ] {ι : Type} [Handler ι]

/-- A body that says it is at its end passes with the frames that it gives all the same, and the
decision, which would grant to code it, is not consulted. -/
example :
    let inner : Response Source :=
      ⟨{}, { script := [.frame (.data [1, 2]), .frame (.trailers [])]
             outlooks := [{}, {}, { saysEnded := some true }] }⟩
    let n : Negotiator Scripted.Script := ⟨⟨[some ⟨[120], {}⟩], 0⟩, 0⟩
    let x : Exchange := ⟨⟨.get, some "x"⟩, ⟨2, .ok inner⟩⟩
    (x.polls n 3).answers = [.pending, .pending, .response ⟨{}, .passed inner.body⟩] ∧
      (x.polls n 3).events = [] := ⟨rfl, rfl⟩

/-- A body of one payload tells its length until that is pulled, and then that nothing follows. -/
example :
    let whole : Source :=
      { script := [.frame (.data [1, 2])]
        outlooks := [⟨some true, ⟨0, some 0⟩⟩, ⟨some false, ⟨2, some 2⟩⟩] }
    let b : Body Scripted.Machine := .passed whole
    whole.kind = .streamed ∧ b.isEnded = false ∧ b.sizeHint = ⟨2, some 2⟩ ∧
      (b.polls 1).last.isEnded = true ∧ (b.polls 1).last.sizeHint = ⟨0, some 0⟩ :=
  ⟨rfl, rfl, rfl, rfl, rfl⟩

end serving

end ContentCoding
