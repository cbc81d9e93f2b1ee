import ContentCoding.Engine
import ContentCoding.Stored.Formats

/-!
# Writing stored streams

An engine that gathers its input into blocks. What it has written but not given out yet
waits in a queue, from which each step takes as much as there is room for.

* `upcoming_sealed`, `upcoming_begun`: completing a block early changes nothing of what is to come.
* `give_conserves`, `finish_conserves`: what goes out is the front of what was to come.
* `owed_flush_lt`, `owed_finish_lt`: each step that is not the last one gives something out.
-/

namespace ContentCoding.Stored

/-- **How far a stream has come.** -/
inductive Stage
  | fresh
  | opened
  | ended
  deriving DecidableEq, Repr, Inhabited

/-- **An encoder**: the input that is in no block yet, and what waits to be given out. -/
structure Encoder where
  coding : Coding
  stage : Stage := .fresh
  held : Octets := []
  queue : Octets := []
  checksum : Checksum := {}
  deriving DecidableEq, Repr

namespace Encoder

/-- How much input is gathered before a block is written. -/
def blockSize : Nat := 32768

/-- The failure of an engine that is given nothing and has nothing to do. -/
def starved : Cause := ⟨"unexpected BufError"⟩

/-- The encoder of a new stream. -/
def start (c : Coding) : Encoder := { coding := c }

/-- The layout of the stream. -/
def layout (e : Encoder) : Layout := Stored.layout e.coding

/-- The block of the input held, if there is any. -/
def block (e : Encoder) : Octets :=
  if e.held = [] then [] else e.layout.block e.held.length ++ e.held

/-- What the stream begins with, if that is not written yet. -/
def opening (e : Encoder) : Octets :=
  match e.stage with
  | .fresh => e.layout.preamble
  | .opened | .ended => []

/-- **All that is still to come**, if no more input follows. -/
def upcoming (e : Encoder) : Octets :=
  match e.stage with
  | .ended => e.queue
  | .fresh | .opened =>
    e.queue ++ e.opening ++ e.block ++ (e.layout.ending ++ e.layout.trailer e.checksum)

/-- Begins the stream. -/
def begun (e : Encoder) : Encoder :=
  match e.stage with
  | .fresh => { e with stage := .opened, queue := e.queue ++ e.layout.preamble }
  | .opened | .ended => e

/-- Writes the input held as a block. -/
def sealed (e : Encoder) : Encoder :=
  match e.stage with
  | .ended => e
  | .fresh | .opened =>
    if e.held = [] then e else { e.begun with queue := e.begun.queue ++ e.block, held := [] }

/-- Ends the stream. -/
def terminated (e : Encoder) : Encoder :=
  { e with stage := .ended, queue := e.upcoming, held := [] }

/-- Takes input. -/
def accept (e : Encoder) (input : Octets) : Encoder :=
  { e with held := e.held ++ input, checksum := e.checksum.absorb input }

/-- The encoder once so much was given out. -/
def dropped (e : Encoder) (room : Nat) : Encoder := { e with queue := e.queue.drop room }

/-- Whether an empty piece of input is refused. -/
def refusesEmpty (e : Encoder) : Bool :=
  match e.layout.emptyInput with
  | .taken => false
  | .takenFirst => e.stage != .fresh
  | .refused => true

/-- **Takes input**, at most as much as completes a block. -/
def encode (e : Encoder) (input : Octets) (room : Nat) : Except Cause (Intake Encoder) :=
  if input = [] ∧ e.refusesEmpty then .error starved
  else
    let e := if e.layout.opening = .withInput then e.begun else e
    -- at least one octet, so that a block that is full already cannot stop the stream
    let n := min input.length (max 1 (blockSize - e.held.length))
    let e := e.accept (input.take n)
    let e := if blockSize ≤ e.held.length then e.sealed else e
    .ok ⟨n, e.queue.take room, e.dropped room⟩

/-- The encoder once all input is in blocks. -/
def flushed (e : Encoder) : Encoder :=
  if e.layout.opening = .withBlock then e.sealed else e.begun.sealed

/-- Gives out what waits, and says whether that was all. -/
def give (e : Encoder) (room : Nat) : Outflow Encoder :=
  ⟨e.queue.take room, e.dropped room, (e.queue.drop room).isEmpty⟩

/-- **Flushes**: everything taken so far goes out in blocks. -/
def flush (e : Encoder) (room : Nat) : Outflow Encoder := e.flushed.give room

/-- **Finishes** the stream. -/
def finish (e : Encoder) (room : Nat) : Outflow Encoder := e.terminated.give room

/-- How much is still to come. -/
def owed (e : Encoder) : Nat := e.upcoming.length

variable {e : Encoder} {room : Nat}

theorem upcoming_begun : e.begun.upcoming = e.upcoming := by
  cases h : e.stage <;> simp [begun, upcoming, opening, block, layout, h]

theorem upcoming_sealed : e.sealed.upcoming = e.upcoming := by
  cases h : e.stage
  · by_cases hh : e.held = [] <;>
      simp [sealed, begun, upcoming, opening, block, layout, h, hh]
  · by_cases hh : e.held = [] <;>
      simp [sealed, begun, upcoming, opening, block, layout, h, hh]
  · simp [sealed, h]

theorem upcoming_flushed : e.flushed.upcoming = e.upcoming := by
  simp only [flushed]
  split
  · exact upcoming_sealed
  · rw [upcoming_sealed, upcoming_begun]

theorem upcoming_terminated : e.terminated.upcoming = e.upcoming := rfl

theorem upcoming_dropped (h : room ≤ e.queue.length) :
    (e.dropped room).upcoming = e.upcoming.drop room := by
  have hd (l : Octets) : (e.queue ++ l).drop room = e.queue.drop room ++ l :=
    List.drop_append_of_le_length h
  cases hs : e.stage <;> simp [dropped, upcoming, opening, block, layout, hs, hd]

theorem give_conserves : (e.give room).written ++ (e.give room).next.upcoming = e.upcoming := by
  have hq (l : Octets) : e.queue.take room ++ (e.queue.drop room ++ l) = e.queue ++ l := by
    rw [← List.append_assoc, List.take_append_drop]
  cases hs : e.stage <;>
    simp [give, dropped, upcoming, opening, block, layout, hs, hq, List.take_append_drop]

theorem finish_conserves :
    (e.finish room).written ++ (e.finish room).next.upcoming = e.upcoming := by
  rw [finish, give_conserves, upcoming_terminated]

theorem owed_give_lt (hr : 0 < room) (h : (e.give room).complete = false) :
    (e.give room).next.owed < e.owed := by
  have hl : room < e.queue.length := by
    simp only [give, List.isEmpty_eq_false_iff, ne_eq, List.drop_eq_nil_iff] at h
    omega
  have hq : e.queue.length ≤ e.upcoming.length := by
    cases hs : e.stage <;> simp [upcoming, hs]
  simp only [give, owed, upcoming_dropped (Nat.le_of_lt hl), List.length_drop]
  omega

theorem owed_flush_lt (hr : 0 < room) (h : (e.flush room).complete = false) :
    (e.flush room).next.owed < e.owed := by
  have hu : e.flushed.owed = e.owed := by rw [owed, upcoming_flushed, owed]
  exact hu ▸ owed_give_lt hr h

theorem owed_finish_lt (hr : 0 < room) (h : (e.finish room).complete = false) :
    (e.finish room).next.owed < e.owed := owed_give_lt (e := e.terminated) hr h

theorem taken_encode_pos {input : Octets} {r : Intake Encoder} (h : e.encode input room = .ok r)
    (hi : input ≠ []) : 0 < r.taken := by
  have hl := List.length_pos_iff.2 hi
  simp only [encode, hi, false_and, ↓reduceIte, Except.ok.injEq] at h
  subst h
  simp only
  omega

/-- Gives out what it is asked for. -/
def ask (e : Encoder) : Demand → Nat → Outflow Encoder
  | .flush => e.flush
  | .finish => e.finish

theorem owed_ask_lt {d : Demand} (hr : 0 < room) (h : (e.ask d room).complete = false) :
    (e.ask d room).next.owed < e.owed := by
  cases d with
  | flush => exact owed_flush_lt hr h
  | finish => exact owed_finish_lt hr h

instance : Engine Encoder where
  encode := encode
  ask e d room := .ok (e.ask d room)
  owed := owed
  encode_progress h _ hi := .inl (taken_encode_pos h hi)
  ask_progress h hr hc := by
    obtain rfl := Except.ok.inj h
    exact owed_ask_lt hr hc

end Encoder

end ContentCoding.Stored
