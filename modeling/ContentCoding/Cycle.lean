import ContentCoding.Compressor
import ContentCoding.Framing
import ContentCoding.Skip

/-!
# The cycle of a response

What an encoder keeps of one response from its head to the end of its body. The body
either passes as it is, for a reason, or goes through a compressor, which is finished
and closed with it.

* `finished_finish`: finishing a cycle, failed or not, marks it finished.
* `closed_finish`: finishing a coded cycle, failed or not, closes its compressor.
* `release_finish`: a cycle that was finished has nothing left to give up.
-/

namespace ContentCoding

/-- **What happens to a body.** -/
inductive Treatment (σ : Type)
  | skipped (reason : SkipReason)
  | encoded (label : Octets) (lease : Lease σ)
  deriving DecidableEq

/-- **A cycle**: one response on its way out. -/
structure Cycle (σ : Type) where
  treatment : Treatment σ
  representation : Representation
  finished : Bool := false
  deriving DecidableEq

namespace Cycle

variable {σ : Type}

/-- Whether the body passes as it is. -/
def isSkip (c : Cycle σ) : Bool :=
  match c.treatment with
  | .skipped _ => true
  | .encoded _ _ => false

/-- Why the body passes as it is, if it does. -/
def reason? (c : Cycle σ) : Option SkipReason :=
  match c.treatment with
  | .skipped r => some r
  | .encoded _ _ => none

/-- The Content-Encoding of the body, if it is coded. -/
def label? (c : Cycle σ) : Option Octets :=
  match c.treatment with
  | .skipped _ => none
  | .encoded label _ => some label

/-- Whether the compressor is closed. A cycle that has none has none to close. -/
def isClosed (c : Cycle σ) : Bool :=
  match c.treatment with
  | .skipped _ => false
  | .encoded _ l => l.closed

/-- The fields of the response's head: those written, or for a coded body those that
announce it. -/
def fields (c : Cycle σ) (framing : Framing) (h : Fields) : Fields :=
  match c.label? with
  | none => h
  | some label => framing.announce label h

variable [Compressor σ]

/-- **A piece of the body** on its way out. -/
def compress (c : Cycle σ) (input : Octets) : Step (Cycle σ) Octets :=
  match c.treatment with
  | .skipped _ => .pure input c
  | .encoded label l =>
    (l.compress input).within fun l => { c with treatment := .encoded label l }

/-- **The end of the body.** The compressor is finished and then closed. It is closed even
where finishing fails, and the first failure is the one reported. -/
def finish (c : Cycle σ) : Step (Cycle σ) Octets :=
  match c.treatment with
  | .skipped _ => .pure [] { c with finished := true }
  | .encoded label l =>
    let rest := l.finish
    let closing := rest.after.close
    { answer := rest.answer.bind fun out => closing.answer.map fun _ => out
      after := { c with treatment := .encoded label closing.after, finished := true }
      events := rest.events ++ closing.events }

/-- **The last piece of the body**, and the end behind it. -/
def compressLast (c : Cycle σ) (input : Octets) : Step (Cycle σ) Octets :=
  (c.compress input).andThen fun out c => c.finish.map (out ++ ·)

/-- Closes the compressor, if there is one and it is open. -/
def close (c : Cycle σ) : Step (Cycle σ) Unit :=
  match c.treatment with
  | .skipped _ => .pure () c
  | .encoded label l => l.close.within fun l => { c with treatment := .encoded label l }

/-- **Giving the cycle up**: an open compressor is closed, and nobody hears if that fails. -/
def release (c : Cycle σ) : List Event := c.close.events

variable {c : Cycle σ}

theorem finished_finish : c.finish.after.finished = true := by
  simp only [finish, Step.pure]
  split <;> rfl

theorem closed_finish (h : c.isSkip = false) : c.finish.after.isClosed = true := by
  simp only [isSkip] at h
  simp only [finish, isClosed]
  split at h
  · cases h
  · rename_i l ht
    simp [Lease.closed_close]

theorem release_of_closed (h : c.isClosed = true) : c.release = [] := by
  simp only [isClosed] at h
  simp only [release, close]
  split
  · rfl
  · rename_i l ht
    simp only [ht] at h
    simp [Step.within, Lease.close_of_closed l h, Step.pure]

theorem release_finish : c.finish.after.release = [] := by
  by_cases hs : c.isSkip = false
  · exact release_of_closed (closed_finish hs)
  · simp only [isSkip] at hs
    split at hs
    · rename_i r hr
      simp [finish, hr, release, close, Step.pure]
    · exact absurd rfl hs

end Cycle

end ContentCoding
