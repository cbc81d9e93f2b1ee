import ContentCoding.Fault
import ContentCoding.Message

/-!
# Requests

What a response needs to know of the request it answers, and the requests of a
connection that wait for their response, oldest first.

* `Backlog.next_record`: a request recorded is answered after those before it.
* `Backlog.peek_eq_next`: looking at the oldest request and taking it agree.
-/

namespace ContentCoding

/-- **A request**, as far as its response depends on it. -/
structure Request where
  method : Method
  accept : Option String := none
  deriving DecidableEq, Repr, Inhabited

namespace Request

/-- **A request observed.** Its first Accept-Encoding counts, if it can be read as text. -/
def observe (method : Method) (fields : Fields) : Request :=
  ⟨method, (fields.text? .acceptEncoding).map String.ofList⟩

def isHead (r : Request) : Bool := r.method == .head

def isConnect (r : Request) : Bool := r.method == .connect

end Request

/-- **The requests that wait for a response**, oldest first. -/
structure Backlog where
  waiting : List Request := []
  deriving DecidableEq, Repr, Inhabited

namespace Backlog

/-- Records a request that has come in. -/
def record (b : Backlog) (r : Request) : Backlog := ⟨b.waiting ++ [r]⟩

/-- Takes the oldest request. -/
def next (b : Backlog) : Except Fault (Request × Backlog) :=
  match b.waiting with
  | r :: rest => .ok (r, ⟨rest⟩)
  | [] => .error (.protocol .responseUnmatched)

/-- The oldest request, which stays. -/
def peek (b : Backlog) : Except Fault Request :=
  match b.waiting with
  | r :: _ => .ok r
  | [] => .error (.protocol .interimUnmatched)

/-- How many requests wait. -/
def size (b : Backlog) : Nat := b.waiting.length

def isEmpty (b : Backlog) : Bool := b.waiting.isEmpty

theorem next_record {r : Request} (b : Backlog) :
    (b.record r).next = match b.waiting with
      | [] => .ok (r, ⟨[]⟩)
      | s :: rest => .ok (s, Backlog.record ⟨rest⟩ r) := by
  cases h : b.waiting <;> simp [next, record, h]

theorem peek_eq_next {b : Backlog} {r : Request} :
    b.peek = .ok r ↔ ∃ b', b.next = .ok (r, b') := by
  cases h : b.waiting <;> simp [next, peek, h]

@[simp] theorem size_record (b : Backlog) (r : Request) : (b.record r).size = b.size + 1 := by
  simp [size, record]

end Backlog

end ContentCoding
