import ContentCoding.Connection

/-!
# Runs of a connection

A run is a list of operations on a connection's stage, made one after another. Its
history holds what each of them answered, the messages taken, and every event.

* `run_append`: a run in two parts is the parts one after the other.
* `run_concat`: a run goes on from where it came to.
-/

namespace ContentCoding

/-- **An operation** on a connection's stage. -/
inductive Operation
  | record (r : Request)
  | write (m : Message)
  | read
  | drain
  | deactivate
  deriving DecidableEq

namespace Connection

variable {δ σ : Type} [Decision δ σ] [Compressor σ]

/-- **Performs an operation.** Its answer is the list of the messages that it took. -/
def perform (c : Connection δ σ) : Operation → Step (Connection δ σ) (List Message)
  | .record r => .pure [] (c.record r)
  | .write m => (c.write m).map fun _ => []
  | .read => .pure c.read.1.toList c.read.2
  | .drain => .pure c.drain.1 c.drain.2
  | .deactivate => c.deactivate.map fun _ => []

/-- **What a run came to**: the answers in order, the events in order, and the stage after it. -/
structure History (δ σ : Type) where
  answers : List (Except Fault (List Message)) := []
  events : List Event := []
  last : Connection δ σ

/-- The messages that were taken in a run, in order. -/
def History.taken (h : History δ σ) : List Message :=
  h.answers.flatMap fun
    | .ok ms => ms
    | .error _ => []

/-- **A run.** -/
def run (c : Connection δ σ) : List Operation → History δ σ
  | [] => { last := c }
  | op :: ops =>
    let s := c.perform op
    let h := run s.after ops
    { answers := s.answer :: h.answers, events := s.events ++ h.events, last := h.last }

theorem run_append (c : Connection δ σ) (ops more : List Operation) :
    c.run (ops ++ more) =
      let h := c.run ops
      let k := h.last.run more
      { answers := h.answers ++ k.answers, events := h.events ++ k.events, last := k.last } := by
  induction ops generalizing c with
  | nil => rfl
  | cons op ops ih => simp [run, ih]

theorem run_concat (c : Connection δ σ) (ops : List Operation) (op : Operation) :
    c.run (ops ++ [op]) =
      let h := c.run ops
      let s := h.last.perform op
      { answers := h.answers ++ [s.answer], events := h.events ++ s.events, last := s.after } := by
  simp [run_append, run]

end Connection

end ContentCoding
