import ContentCoding.Request

/-!
# Responses that are never coded

The rules of HTTP under which a body passes as it is, in the order in which they
are tried.

* `skipReason?_eq_some_iff`: a reason is given when its rule holds and no earlier one does.
* `skipReason?_eq_none_iff`: none is given when no rule holds.
-/

namespace ContentCoding

/-- **How a body reaches the encoder**: in chunks, or whole with a known size. -/
inductive BodyKind
  | streamed
  | aggregate (size : Nat)
  deriving DecidableEq, Repr, Inhabited

/-- How a body is delivered. -/
inductive Representation
  | streamed
  | aggregate
  deriving DecidableEq, Repr, Inhabited

def BodyKind.representation : BodyKind → Representation
  | .streamed => .streamed
  | .aggregate _ => .aggregate

/-- **Why a response passes as it is.** -/
inductive SkipReason
  | headRequest
  | connectEstablished
  | bodylessStatus
  | alreadyEncoded
  | emptyBody
  | legacyVersion
  | declined
  deriving DecidableEq, Repr, Inhabited

namespace SkipReason

/-- **The rule behind a reason.** That a decision declines is no rule of HTTP. -/
def applies (head : Head) (request : Request) (body : BodyKind) : SkipReason → Bool
  | .headRequest => request.isHead
  | .connectEstablished => request.isConnect && head.status.isSuccess
  | .bodylessStatus => head.status.isBodyless
  | .alreadyEncoded => head.fields.has .contentEncoding
  | .emptyBody => body == .aggregate 0
  | .legacyVersion => head.version.isLegacy
  | .declined => false

/-- The rules in the order in which they are tried. -/
def order : List SkipReason :=
  [.headRequest, .connectEstablished, .bodylessStatus, .alreadyEncoded, .emptyBody, .legacyVersion]

end SkipReason

variable {head : Head} {request : Request} {body : BodyKind} {reason : SkipReason}

/-- **The first rule that forbids coding**, if one does. -/
def skipReason? (head : Head) (request : Request) (body : BodyKind) : Option SkipReason :=
  SkipReason.order.find? (SkipReason.applies head request body)

theorem skipReason?_eq_none_iff :
    skipReason? head request body = none ↔
      ∀ r : SkipReason, r.applies head request body = false := by
  constructor
  · intro h r
    have hr : ∀ r ∈ SkipReason.order, ¬ r.applies head request body := List.find?_eq_none.1 h
    cases r
    case declined => rfl
    all_goals simpa using hr _ (by decide)
  · intro h
    exact List.find?_eq_none.2 fun r _ => by simp [h r]

theorem skipReason?_eq_some_iff :
    skipReason? head request body = some reason ↔
      reason.applies head request body ∧
        ∃ before after, SkipReason.order = before ++ reason :: after ∧
          ∀ r ∈ before, r.applies head request body = false := by
  simp [skipReason?, List.find?_eq_some_iff_append]

end ContentCoding
