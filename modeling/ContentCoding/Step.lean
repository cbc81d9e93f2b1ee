import ContentCoding.Fault
import ContentCoding.Message

/-!
# Steps and their events

An operation answers, leaves a new state behind, and on the way consults the
decision or calls a compressor. What it does is kept as a list of events, so
that the calls a compressor received can be read off a whole run.

* `andThen`: the second operation runs only where the first answered.
* `andThen_assoc`: chains of operations need no brackets.
* `ok_of_andThen`, `andThen_of_ok`: a chain that answers has its parts answer, and is both of them.
-/

namespace ContentCoding

/-- **An event.** The decision is consulted about a head and an Accept-Encoding value; a
compressor is opened; it compresses, finishes or closes, with what it answered; or the
end of the connection is announced, while some messages are left to be sent. -/
inductive Event
  | consulted (head : Head) (accept : Option String)
  | opened (id : Nat)
  | compressed (id : Nat) (input : Octets) (answer : Except Cause Octets)
  | finished (id : Nat) (answer : Except Cause Octets)
  | closed (id : Nat) (answer : Except Cause Unit)
  | notified (left : List Message)
  deriving DecidableEq

/-- The compressor that an event concerns. -/
def Event.compressor? : Event → Option Nat
  | .opened id | .compressed id _ _ | .finished id _ | .closed id _ => some id
  | .consulted _ _ | .notified _ => none

/-- **A step**: the answer of an operation, the state after it, and its events in order. -/
structure Step (τ α : Type) where
  answer : Except Fault α
  after : τ
  events : List Event := []

namespace Step

variable {τ υ α β γ : Type}

/-- A step that answers and does nothing. -/
def pure (a : α) (s : τ) : Step τ α := ⟨.ok a, s, []⟩

/-- A step that fails and does nothing. -/
def fail (f : Fault) (s : τ) : Step τ α := ⟨.error f, s, []⟩

/-- The same step with another answer. -/
def map (f : α → β) (s : Step τ α) : Step τ β := ⟨s.answer.map f, s.after, s.events⟩

/-- The same step within a larger state. -/
def within (f : τ → υ) (s : Step τ α) : Step υ α := ⟨s.answer, f s.after, s.events⟩

/-- **One step after another.** The second sees the first one's answer and state; where the
first fails there is no second. -/
def andThen (s : Step τ α) (next : α → τ → Step τ β) : Step τ β :=
  match s.answer with
  | .error f => ⟨.error f, s.after, s.events⟩
  | .ok a =>
    let t := next a s.after
    ⟨t.answer, t.after, s.events ++ t.events⟩

theorem pure_andThen (a : α) (x : τ) (next : α → τ → Step τ β) :
    (pure a x).andThen next = next a x := by
  simp [pure, andThen]

theorem andThen_assoc (s : Step τ α) (f : α → τ → Step τ β) (g : β → τ → Step τ γ) :
    (s.andThen f).andThen g = s.andThen fun a x => (f a x).andThen g := by
  obtain ⟨answer, after, events⟩ := s
  cases answer with
  | error e => rfl
  | ok a =>
    simp only [andThen]
    cases (f a after).answer <;> simp

theorem map_id (s : Step τ α) : s.map (fun a => a) = s := by
  obtain ⟨answer, after, events⟩ := s
  cases answer <;> rfl

theorem map_map (s : Step τ α) (f : α → β) (g : β → γ) :
    (s.map f).map g = s.map fun a => g (f a) := by
  obtain ⟨answer, after, events⟩ := s
  cases answer <;> rfl

theorem map_andThen (s : Step τ α) (f : α → β) (g : β → τ → Step τ γ) :
    (s.map f).andThen g = s.andThen fun a => g (f a) := by
  obtain ⟨answer, after, events⟩ := s
  cases answer <;> rfl

theorem andThen_map (s : Step τ α) (f : β → γ) (g : α → τ → Step τ β) :
    (s.andThen g).map f = s.andThen fun a x => (g a x).map f := by
  obtain ⟨answer, after, events⟩ := s
  cases answer <;> rfl

theorem andThen_of_ok {s : Step τ α} {a : α} (h : s.answer = .ok a) (next : α → τ → Step τ β) :
    s.andThen next = ⟨(next a s.after).answer, (next a s.after).after,
      s.events ++ (next a s.after).events⟩ := by
  simp only [andThen, h]

theorem ok_of_andThen {s : Step τ α} {next : α → τ → Step τ β} {b : β}
    (h : (s.andThen next).answer = .ok b) :
    ∃ a, s.answer = .ok a ∧ (next a s.after).answer = .ok b := by
  cases ha : s.answer with
  | error f =>
    simp only [andThen, ha] at h
    cases h
  | ok a =>
    rw [andThen_of_ok ha] at h
    exact ⟨a, rfl, h⟩

end Step

end ContentCoding
