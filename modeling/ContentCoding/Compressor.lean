import ContentCoding.Step

/-!
# Compressors

A compressor takes a body piece by piece and gives back its coded form, some of it
perhaps only later. It must be closed once. The response that it serves holds it
by a lease, through which every call goes and which closes it at most once.

* `Lease.close_twice`: closing again makes no call and cannot fail.
* `Lease.closed_close`: after a close, failed or not, the lease is closed.
-/

namespace ContentCoding

/-- **A compressor**, by what its states answer. Any call may fail. -/
class Compressor (σ : Type) where
  /-- Takes a piece of the body, and gives what is ready of its coded form. -/
  compress : σ → Octets → Except Cause Octets × σ
  /-- Gives the rest of the coded form, and ends it. -/
  finish : σ → Except Cause Octets × σ
  /-- Whether there is nothing left to finish. -/
  isFinished : σ → Bool
  /-- Gives up what the compressor holds. -/
  close : σ → Except Cause Unit × σ

/-- **A compressor in the care of one response.** -/
structure Lease (σ : Type) where
  id : Nat
  compressor : σ
  closed : Bool := false
  deriving DecidableEq

namespace Lease

variable {σ : Type} [Compressor σ] (l : Lease σ)

/-- Feeds a piece of the body to the compressor. -/
def compress (input : Octets) : Step (Lease σ) Octets :=
  let (answer, s) := Compressor.compress l.compressor input
  ⟨answer.mapError .compression, { l with compressor := s }, [.compressed l.id input answer]⟩

/-- The rest of the coded form. A compressor that is finished already is not asked. -/
def finish : Step (Lease σ) Octets :=
  if Compressor.isFinished l.compressor then .pure [] l
  else
    let (answer, s) := Compressor.finish l.compressor
    ⟨answer.mapError .compression, { l with compressor := s }, [.finished l.id answer]⟩

/-- **Closes the compressor**, unless that was done before. A close that fails counts. -/
def close : Step (Lease σ) Unit :=
  if l.closed then .pure () l
  else
    let (answer, s) := Compressor.close l.compressor
    ⟨answer.mapError .closing, { l with compressor := s, closed := true }, [.closed l.id answer]⟩

theorem closed_close : l.close.after.closed = true := by
  simp only [close]
  split
  · assumption
  · rfl

theorem close_of_closed (h : l.closed = true) : l.close = .pure () l := by
  simp [close, h]

theorem close_twice : l.close.after.close = .pure () l.close.after :=
  close_of_closed _ (closed_close l)

end Lease

end ContentCoding
