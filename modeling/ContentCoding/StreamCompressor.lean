import ContentCoding.Compressor
import ContentCoding.Engine

/-!
# Stream compressors

A compressor that drives an engine. It can be told to flush with every piece of the body,
so that each is readable when it arrives.

* `isFinished_finish`: a compressor that could be finished is so.
* `finish_of_finished`: finishing again gives nothing and cannot fail.
* `compress_of_finished`, `compress_of_closed`, `finish_of_closed`: what is refused changes nothing.
-/

namespace ContentCoding

/-- **A stream compressor.** It has no engine once it is closed. -/
structure StreamCompressor (ε : Type) where
  engine : Option ε
  alwaysFlush : Bool := false
  finished : Bool := false
  deriving DecidableEq

namespace StreamCompressor

variable {ε : Type}

/-- The compressor that starts with an engine. -/
def start (e : ε) (alwaysFlush : Bool) : StreamCompressor ε := { engine := some e, alwaysFlush }

def alreadyFinished : Cause := ⟨"compressor already finished"⟩

def alreadyClosed : Cause := ⟨"compressor is closed"⟩

/-- Whether the compressor has been closed. -/
def isClosed (c : StreamCompressor ε) : Bool := c.engine.isNone

variable [Engine ε]

/-- **Takes a piece of the body.** An engine that refuses it loses nothing. -/
def compress (c : StreamCompressor ε) (input : Octets) :
    Except Cause Octets × StreamCompressor ε :=
  if c.finished then (.error alreadyFinished, c)
  else
    match c.engine with
    | none => (.error alreadyClosed, c)
    | some e =>
      match Engine.feed e input with
      | (.error cause, e) => (.error cause, { c with engine := some e })
      | (.ok out, e) =>
        if c.alwaysFlush then
          let (more, e) := Engine.drain .flush e
          (more.map (out ++ ·), { c with engine := some e })
        else (.ok out, { c with engine := some e })

/-- **Ends the coded form**, and gives what is left of it. -/
def finish (c : StreamCompressor ε) : Except Cause Octets × StreamCompressor ε :=
  if c.finished then (.ok [], c)
  else
    match c.engine with
    | none => (.error alreadyClosed, c)
    | some e =>
      match Engine.drain .finish e with
      | (.error cause, e) => (.error cause, { c with engine := some e })
      | (.ok out, e) => (.ok out, { c with engine := some e, finished := true })

/-- Gives up the engine. -/
def close (c : StreamCompressor ε) : Except Cause Unit × StreamCompressor ε :=
  (.ok (), { c with engine := none })

instance : Compressor (StreamCompressor ε) where
  compress := compress
  finish := finish
  isFinished := finished
  close := close

variable {c : StreamCompressor ε}

theorem compress_of_finished (h : c.finished = true) (input : Octets) :
    c.compress input = (.error alreadyFinished, c) := by
  simp [compress, h]

theorem compress_of_closed (hf : c.finished = false) (he : c.engine = none) (input : Octets) :
    c.compress input = (.error alreadyClosed, c) := by
  simp [compress, hf, he]

theorem finish_of_closed (hf : c.finished = false) (he : c.engine = none) :
    c.finish = (.error alreadyClosed, c) := by
  simp [finish, hf, he]

theorem finish_of_finished (h : c.finished = true) : c.finish = (.ok [], c) := by
  simp [finish, h]

theorem isFinished_finish {out : Octets} (h : c.finish.1 = .ok out) :
    c.finish.2.finished = true := by
  cases hf : c.finished with
  | true => rw [finish_of_finished hf, hf]
  | false =>
    cases he : c.engine with
    | none =>
      rw [finish_of_closed hf he] at h
      cases h
    | some e =>
      cases hfin : Engine.drain .finish e with
      | mk answer e' =>
        cases answer with
        | error cause => simp [finish, hf, he, hfin] at h
        | ok out => simp [finish, hf, he, hfin]

end StreamCompressor

end ContentCoding
