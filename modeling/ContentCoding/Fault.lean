/-!
# Faults

What can go wrong while a response is coded. Every fault is final for its
connection or body: a compressor that has taken part of its input cannot start
again.

* `Failure.fault?_ofFault`: a fault sent on as a failure is recognised again.
* `ok_of_map`, `map_eq_error_iff`, `ok_of_mapError`: an answer that was made from another one.
-/

namespace ContentCoding

/-- **Why something outside failed**, in its own words: a compressor, or the producer of a body. -/
structure Cause where
  text : String
  deriving DecidableEq, Repr, Inhabited

/-- **How a sequence of messages broke the pairing of requests and responses.** -/
inductive Violation
  | responseUnmatched
  | interimUnmatched
  | responseOverlaps
  | chunkWithoutHead
  deriving DecidableEq, Repr, Inhabited

def Violation.message : Violation → String
  | .responseUnmatched => "response has no matching request"
  | .interimUnmatched => "interim response has no matching request"
  | .responseOverlaps => "response started before the previous body finished"
  | .chunkWithoutHead => "body chunk without a response head"

/-- **A fault.** A violation of the protocol, a failure to compress or finish a body, a
failure to close a compressor, or a message after an earlier fault. -/
inductive Fault
  | protocol (violation : Violation)
  | compression (cause : Cause)
  | closing (cause : Cause)
  | terminated
  deriving DecidableEq, Repr, Inhabited

namespace Fault

def message : Fault → String
  | .protocol v => "protocol violation: " ++ v.message
  | .compression _ => "compression failed"
  | .closing _ => "failed to close compressor"
  | .terminated => "encoder terminated by an earlier fatal error"

/-- What lies beneath the fault. -/
def cause? : Fault → Option Cause
  | .compression c | .closing c => some c
  | .protocol _ | .terminated => none

end Fault

/-- **Why a body failed**: its producer did, or the coding of it. -/
inductive Failure
  | foreign (cause : Cause)
  | coding (fault : Fault)
  deriving DecidableEq, Repr, Inhabited

namespace Failure

/-- The fault behind a failure, where coding is what failed. -/
def fault? : Failure → Option Fault
  | .coding f => some f
  | .foreign _ => none

/-- A fault sent on as the failure of a body. -/
def ofFault (f : Fault) : Failure := .coding f

@[simp] theorem fault?_ofFault (f : Fault) : (ofFault f).fault? = some f := rfl

end Failure

/-- Answers can be compared. -/
instance decidableEqAnswer {ε α : Type} [DecidableEq ε] [DecidableEq α] :
    DecidableEq (Except ε α)
  | .ok a, .ok b => decidable_of_iff (a = b) ⟨congrArg _, Except.ok.inj⟩
  | .error a, .error b => decidable_of_iff (a = b) ⟨congrArg _, Except.error.inj⟩
  | .ok _, .error _ => isFalse nofun
  | .error _, .ok _ => isFalse nofun

section answers

variable {ε υ α β : Type} {answer : Except ε α}

/-- An answer that is there was made from one that was. -/
theorem ok_of_map {f : α → β} {b : β} (h : answer.map f = .ok b) :
    ∃ a, answer = .ok a ∧ f a = b := by
  cases answer with
  | error e => cases h
  | ok a => exact ⟨a, rfl, Except.ok.inj h⟩

/-- An answer that was made from another one fails as that one does. -/
theorem map_eq_error_iff {f : α → β} {e : ε} : answer.map f = .error e ↔ answer = .error e := by
  cases answer <;> simp [Except.map]

theorem ok_of_mapError {f : ε → υ} {a : α} (h : answer.mapError f = .ok a) : answer = .ok a := by
  cases answer with
  | error e => cases h
  | ok b => rw [← Except.ok.inj h]

end answers

end ContentCoding
