import ContentCoding.Body.Source
import ContentCoding.Cycle

/-!
# Bodies

The body of a response as it leaves a service. Either it is the handler's body as it is,
or each of its frames goes through the compressor of a cycle. Trailer fields wait until
the compressor is finished. A failure ends a coded body, and closes its compressor.

* `poll_of_done`: a coded body that is done stays at its end.
* `isEnded_iff`: a coded body says that it has ended just when it is done.
-/

namespace ContentCoding

/-- **How far a coded body has come.** -/
inductive Phase
  | reading
  | trailing (fields : Fields)
  | done
  deriving DecidableEq, Repr

/-- **A coded body**: where its data comes from, and the cycle that they go through. -/
structure CodedBody (σ : Type) where
  source : Source
  cycle : Cycle σ
  phase : Phase := .reading
  deriving DecidableEq

/-- **A poll**: what it answered, the state after it, and its events in order. -/
structure Polled (τ : Type) where
  result : Poll Failure
  after : τ
  events : List Event := []

namespace Polled

/-- The same poll, with events that came before it. -/
def preceded {τ : Type} (p : Polled τ) (events : List Event) : Polled τ :=
  { p with events := events ++ p.events }

/-- The same poll within a larger state. -/
def within {τ υ : Type} (f : τ → υ) (p : Polled τ) : Polled υ := ⟨p.result, f p.after, p.events⟩

end Polled

namespace CodedBody

variable {σ : Type} [Compressor σ]

/-- **A failure** ends the body. Its compressor is closed, and trailer fields are forgotten. -/
def abort (b : CodedBody σ) (e : Failure) : Polled (CodedBody σ) :=
  let closing := b.cycle.close
  { result := .failed e
    after := { b with cycle := closing.after, phase := .done }
    events := closing.events }

/-- **The end of the source.** The compressor is finished; what it still gives goes out
first, then the trailer fields. -/
def conclude (b : CodedBody σ) (trailers : Option Fields) : Polled (CodedBody σ) :=
  let rest := b.cycle.finish
  let b := { b with cycle := rest.after }
  match rest.answer with
  | .error f => (b.abort (.ofFault f)).preceded rest.events
  | .ok out =>
    match out, trailers with
    | [], none => ⟨.ended, { b with phase := .done }, rest.events⟩
    | [], some t => ⟨.frame (.trailers t), { b with phase := .done }, rest.events⟩
    | out, none => ⟨.frame (.data out), { b with phase := .done }, rest.events⟩
    | out, some t => ⟨.frame (.data out), { b with phase := .trailing t }, rest.events⟩

/-- **Reads on**, until there is something to answer. Data that give no output yet are
passed over. -/
def pull (b : CodedBody σ) : List (Poll Cause) → Polled (CodedBody σ)
  | [] => conclude { b with source := b.source.rest [] } none
  | .pending :: script => ⟨.pending, { b with source := b.source.rest script }, []⟩
  | .ended :: script => conclude { b with source := b.source.rest script } none
  | .failed e :: script => abort { b with source := b.source.rest script } (.foreign e)
  | .frame (.trailers t) :: script => conclude { b with source := b.source.rest script } (some t)
  | .frame (.data payload) :: script =>
    let s := b.cycle.compress payload
    match s.answer with
    | .error f =>
      (abort { b with source := b.source.rest script, cycle := s.after } (.ofFault f)).preceded
        s.events
    | .ok [] => (pull { b with cycle := s.after } script).preceded s.events
    | .ok out =>
      ⟨.frame (.data out), { b with source := b.source.rest script, cycle := s.after }, s.events⟩

/-- Polls the body. -/
def poll (b : CodedBody σ) : Polled (CodedBody σ) :=
  match b.phase with
  | .reading => b.pull b.source.script
  | .trailing t => ⟨.frame (.trailers t), { b with phase := .done }, []⟩
  | .done => ⟨.ended, b, []⟩

theorem poll_of_done {b : CodedBody σ} (h : b.phase = .done) : b.poll = ⟨.ended, b, []⟩ := by
  simp [poll, h]

end CodedBody

/-- **The body of a response that leaves a service.** -/
inductive Body (σ : Type)
  | coded (b : CodedBody σ)
  | passed (s : Source)
  deriving DecidableEq

namespace Body

variable {σ : Type}

/-- The Content-Encoding of the body, if it is coded. -/
def label? : Body σ → Option Octets
  | .coded b => b.cycle.label?
  | .passed _ => none

/-- Whether the body says that nothing follows. -/
def isEnded : Body σ → Bool
  | .coded b => b.phase == .done
  | .passed s => s.isEnded

/-- How many octets may follow. Of a coded body nothing is known. -/
def sizeHint : Body σ → SizeHint
  | .coded _ => {}
  | .passed s => s.sizeHint

variable [Compressor σ]

/-- **Polls the body.** -/
def poll : Body σ → Polled (Body σ)
  | .coded b => b.poll.within .coded
  | .passed s => ⟨s.poll.1.mapFailure .foreign, .passed s.poll.2, []⟩

/-- **Destroys the body.** An open compressor is closed. -/
def release : Body σ → List Event
  | .coded b => b.cycle.release
  | .passed _ => []

omit [Compressor σ] in
theorem isEnded_iff {b : CodedBody σ} : (Body.coded b).isEnded ↔ b.phase = .done := by
  simp [isEnded]

end Body

end ContentCoding
