import ContentCoding.Compressor.Session
import ContentCoding.StreamCompressor

/-!
# Compressors in a box

A compressor can be handed on in a box. Every call of the box goes to what it holds, so that a
compressor is used through a box as it is used without one.

* `session_boxed`: a session through a box is the session with what it holds.
-/

namespace ContentCoding

/-- **A compressor that tells whether it was closed.** -/
class Closeable (σ : Type) where
  isClosed : σ → Bool

instance {ε : Type} : Closeable (StreamCompressor ε) where
  isClosed := StreamCompressor.isClosed

/-- **A compressor in a box.** -/
structure Boxed (σ : Type) where
  content : σ
  deriving DecidableEq

namespace Boxed

variable {σ : Type}

/-- What a call of the content comes to for the box. -/
def put {α : Type} (r : α × σ) : α × Boxed σ := (r.1, ⟨r.2⟩)

instance [Compressor σ] : Compressor (Boxed σ) where
  compress b input := put (Compressor.compress b.content input)
  finish b := put (Compressor.finish b.content)
  isFinished b := Compressor.isFinished b.content
  close b := put (Compressor.close b.content)

instance [Closeable σ] : Closeable (Boxed σ) where
  isClosed b := Closeable.isClosed b.content

end Boxed

namespace Compressor

variable {σ : Type} [Compressor σ]

theorem perform_boxed (s : σ) (call : Call) :
    perform (Boxed.mk s) call = Boxed.put (perform s call) := by
  cases call <;> rfl

/-- **A session through a box** is the session with what it holds. -/
theorem session_boxed (s : σ) (calls : List Call) :
    session (Boxed.mk s) calls =
      { outcomes := (session s calls).outcomes, last := ⟨(session s calls).last⟩ } := by
  induction calls generalizing s with
  | nil => rfl
  | cons call calls ih =>
    simp only [session, perform_boxed, Boxed.put]
    rw [ih]

end Compressor

end ContentCoding
