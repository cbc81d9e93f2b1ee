import ContentCoding.Cycle

/-!
# Negotiation

A decision is asked whether and how to code a response, once, and only where no rule of
HTTP forbids it. What it grants is a label and a compressor, which is numbered.

* `negotiate_of_skipReason`: where a rule forbids coding, the decision is not asked.
* `negotiate_of_declined`, `negotiate_of_granted`: what its answer comes to where it is.
-/

namespace ContentCoding

/-- **A way to code a response**: a Content-Encoding, and the compressor that makes it true. -/
structure Encoding (σ : Type) where
  label : Octets
  compressor : σ

/-- **A decision**: for the head of a response and the Accept-Encoding of its request, an
encoding, or none to let the body pass. A decision may remember what it was asked. -/
class Decision (δ : Type) (σ : outParam Type) where
  consult : δ → Head → Option String → Option (Encoding σ) × δ

/-- **A decision, and how many compressors it has had opened.** -/
structure Negotiator (δ : Type) where
  decision : δ
  opened : Nat := 0
  deriving DecidableEq

/-- What a negotiation comes to. -/
structure Negotiated (δ σ : Type) where
  cycle : Cycle σ
  after : Negotiator δ
  events : List Event := []

namespace Negotiator

variable {δ σ : Type} [Decision δ σ]

/-- **How a response is sent.** The rules of HTTP come first; the decision is asked where they
are silent. -/
def negotiate (n : Negotiator δ) (head : Head) (request : Request) (body : BodyKind) :
    Negotiated δ σ :=
  match skipReason? head request body with
  | some reason => { cycle := ⟨.skipped reason, body.representation, false⟩, after := n }
  | none =>
    match Decision.consult n.decision head request.accept with
    | (none, d) =>
      { cycle := ⟨.skipped .declined, body.representation, false⟩
        after := { n with decision := d }
        events := [.consulted head request.accept] }
    | (some e, d) =>
      { cycle := ⟨.encoded e.label ⟨n.opened, e.compressor, false⟩, body.representation, false⟩
        after := ⟨d, n.opened + 1⟩
        events := [.consulted head request.accept, .opened n.opened] }

variable {n : Negotiator δ} {head : Head} {request : Request} {body : BodyKind} {d : δ}
  {e : Encoding σ}

theorem negotiate_of_skipReason {reason : SkipReason}
    (h : skipReason? head request body = some reason) :
    n.negotiate head request body =
      { cycle := ⟨.skipped reason, body.representation, false⟩, after := n } := by
  simp [negotiate, h]

theorem negotiate_of_declined (h : skipReason? head request body = none)
    (hc : Decision.consult n.decision head request.accept = (none, d)) :
    n.negotiate head request body =
      { cycle := ⟨.skipped .declined, body.representation, false⟩
        after := { n with decision := d }
        events := [.consulted head request.accept] } := by
  simp only [negotiate, h, hc]

theorem negotiate_of_granted (h : skipReason? head request body = none)
    (hc : Decision.consult n.decision head request.accept = (some e, d)) :
    n.negotiate head request body =
      { cycle := ⟨.encoded e.label ⟨n.opened, e.compressor, false⟩, body.representation, false⟩
        after := ⟨d, n.opened + 1⟩
        events := [.consulted head request.accept, .opened n.opened] } := by
  simp only [negotiate, h, hc]

theorem not_finished_negotiate : (n.negotiate head request body).cycle.finished = false := by
  simp only [negotiate]
  split
  · rfl
  · split <;> rfl

theorem not_isClosed_negotiate : (n.negotiate head request body).cycle.isClosed = false := by
  simp only [negotiate]
  split
  · rfl
  · split <;> rfl

end Negotiator

end ContentCoding
