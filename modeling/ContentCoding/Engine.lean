import ContentCoding.Fault
import ContentCoding.Octets

/-!
# Engines

An engine turns a stream of octets into its coded form, a bounded piece at a time. It is
told how much room there is and may take only part of what it is offered, so that it is
driven in loops: until all input is taken, until nothing is held back, until the stream
has ended.

* `feed`, `drain`: the loops, each with a buffer of fixed size.
-/

namespace ContentCoding

/-- **What an engine did with input**: how much of it was taken, and what was written. -/
structure Intake (ε : Type) where
  taken : Nat
  written : Octets
  next : ε

/-- **What an engine gave without input**: what was written, and whether that was all. -/
structure Outflow (ε : Type) where
  written : Octets
  next : ε
  complete : Bool

/-- **What an engine can be asked for** without input: all that the input so far amounts to, or the
end of the stream. -/
inductive Demand
  | flush
  | finish
  deriving DecidableEq, Repr, Inhabited

/-- **An engine.** Every step may fail, and then leaves the engine as it was. Every other step gets
on: it takes input, or it writes some of what is owed, the octets still to come. -/
class Engine (ε : Type) where
  /-- Offers input, with room for so many octets of output. -/
  encode : ε → Octets → Nat → Except Cause (Intake ε)
  /-- Asks for output, with room for so many octets. -/
  ask : ε → Demand → Nat → Except Cause (Outflow ε)
  /-- How many octets are still to come without more input. -/
  owed : ε → Nat
  encode_progress {e : ε} {input : Octets} {room : Nat} {r : Intake ε} :
    encode e input room = .ok r → 0 < room → input ≠ [] →
      0 < r.taken ∨ r.written ≠ [] ∧ owed r.next < owed e
  ask_progress {e : ε} {d : Demand} {room : Nat} {o : Outflow ε} :
    ask e d room = .ok o → 0 < room → o.complete = false → owed o.next < owed e

namespace Engine

variable {ε : Type} [Engine ε]

/-- The room that an engine is given in each step. -/
def bufferSize : Nat := 8192

theorem bufferSize_pos : 0 < bufferSize := by decide

/-- **Feeds input**, step by step, until all of it is taken. -/
def feed (e : ε) (input : Octets) : Except Cause Octets × ε :=
  match _h : encode e input bufferSize with
  | .error c => (.error c, e)
  | .ok r =>
    if _hr : input.length ≤ r.taken then (.ok r.written, r.next)
    else
      let more := feed r.next (input.drop r.taken)
      (more.1.map (r.written ++ ·), more.2)
termination_by (input.length, owed e)
decreasing_by
  have hi : input ≠ [] := by
    intro hn
    simp [hn] at _hr
  rw [List.length_drop]
  -- an engine that takes nothing has given out some of what it owed
  rcases Nat.eq_zero_or_pos r.taken with h0 | h0
  · have hp := (encode_progress _h bufferSize_pos hi).resolve_left (by omega)
    rw [h0, Nat.sub_zero]
    exact Prod.Lex.right _ hp.2
  · have := List.length_pos_iff.2 hi
    exact Prod.Lex.left _ _ (by omega)

/-- **Asks for output**, step by step, until there is no more of it. -/
def drain (d : Demand) (e : ε) : Except Cause Octets × ε :=
  match _h : ask e d bufferSize with
  | .error c => (.error c, e)
  | .ok o =>
    if _hc : o.complete then (.ok o.written, o.next)
    else
      let more := drain d o.next
      (more.1.map (o.written ++ ·), more.2)
termination_by owed e
decreasing_by exact ask_progress _h bufferSize_pos (by simpa using _hc)

end Engine

end ContentCoding
