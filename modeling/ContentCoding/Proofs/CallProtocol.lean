import ContentCoding.Compressor.Boxed
import ContentCoding.Proofs.Transcript
import ContentCoding.Stored.Encoder

/-!
# The protocol of calls

Calls of a compressor can come in any order, and each of them is answered by what was called for
before: whether there was a close, and whether there was a finish before the first one. Of the
engine nothing is assumed but that it can be ended. It may refuse input, or fail to flush.

* `reached_feed`, `reached_drain`: the loops leave an engine where it can be ended.
* `perform_keeps`, `session_keeps`: what one call does to a compressor, and what any calls come to.
* `orderly_of_canFinish`: how a compressor answers, by what it has come to.
* `keeps_protocol`: **how a compressor answers, whatever it is called for**, itself or in a box.
-/

namespace ContentCoding

open Engine

namespace Engine

variable {ε : Type} [Engine ε] {start e : ε}

/-- **What an engine can have come to.** It takes input and is flushed, in any order; then it is
asked for its end, which takes it one step or more. Other than in a transcript, a flush need not be
done before there is more input, as it may have failed. -/
inductive Reached (start : ε) : (ending : Bool) → ε → Prop
  | start : Reached start false start
  | encode {e : ε} {input : Octets} {r : Intake ε} :
      Reached start false e → Engine.encode e input bufferSize = .ok r → Reached start false r.next
  | flush {e : ε} {o : Outflow ε} :
      Reached start false e → Engine.ask e .flush bufferSize = .ok o → Reached start false o.next
  | finish {ending : Bool} {e : ε} {o : Outflow ε} :
      Reached start ending e → Engine.ask e .finish bufferSize = .ok o → o.complete = false →
      Reached start true o.next

/-- **That an engine can be ended**: no step towards its end fails, whatever it has come to. -/
def CanEnd (start : ε) : Prop :=
  ∀ (ending : Bool) (e : ε), Reached start ending e → ∃ o, ask e .finish bufferSize = .ok o

/-- Input leaves an engine at what it can come to, whether all of it is taken or not. -/
theorem reached_feed (h : Reached start false e) (input : Octets) :
    Reached start false (feed e input).2 := by
  induction e, input using feed.induct with
  | case1 e input c he => rwa [feed_of_error he]
  | case2 e input r he hr =>
    rw [feed_of_done he hr]
    exact h.encode he
  | case3 e input r he hr ih =>
    rw [feed_of_more he hr]
    exact ih (h.encode he)

/-- So does a flush. -/
theorem reached_drain (h : Reached start false e) : Reached start false (drain .flush e).2 := by
  induction e using @drain.induct ε _ .flush with
  | case1 e c he => rwa [drain_of_error he]
  | case2 e o he hc =>
    rw [drain_of_done he hc]
    exact h.flush he
  | case3 e o he hc ih =>
    rw [drain_of_more he hc]
    exact ih (h.flush he)

/-- An engine that can be ended is ended by the loop that asks for it. -/
theorem drain_of_canEnd (hs : CanEnd start) {ending : Bool} (h : Reached start ending e) :
    ∃ out, (drain .finish e).1 = .ok out := by
  induction e using @drain.induct ε _ .finish generalizing ending with
  | case1 e c he =>
    obtain ⟨o, ho⟩ := hs ending e h
    cases he.symm.trans ho
  | case2 e o he hc => exact ⟨o.written, by rw [drain_of_done he hc]⟩
  | case3 e o he hc ih =>
    obtain ⟨out, hout⟩ := ih (h.finish he (by simpa using hc))
    exact ⟨o.written ++ out, by rw [drain_of_more he hc, hout]; rfl⟩

end Engine

/-- No step towards the end of a stored stream fails. -/
theorem Stored.Encoder.canEnd_start (coding : Coding) : CanEnd (Stored.Encoder.start coding) :=
  fun _ e _ => ⟨e.ask .finish bufferSize, rfl⟩

namespace StreamCompressor

variable {ε : Type} [Engine ε] {start e : ε} {c : StreamCompressor ε} {call : Call} {out : Octets}

/-- **A compressor that can be finished**: while it is at work, its engine has come to what it can
come to before its end. -/
def CanFinish (c : StreamCompressor ε) (start : ε) : Prop :=
  c.finished = false → ∀ e, c.engine = some e → Reached start false e

omit [Engine ε] in
theorem isClosed_of_engine (he : c.engine = some e) : c.isClosed = false := by
  rw [isClosed, he]
  rfl

theorem finish_of_drain (hf : c.finished = false) (he : c.engine = some e)
    (h : (drain .finish e).1 = .ok out) :
    c.finish = (.ok out, { c with engine := some (drain .finish e).2, finished := true }) := by
  obtain ⟨e', hd⟩ : ∃ e', drain .finish e = (.ok out, e') := ⟨_, Prod.ext h rfl⟩
  simp [finish, hf, he, hd]

/-- **A piece leaves a compressor at work as it was**, taken or not; and any other one. -/
theorem compress_keeps (h : c.CanFinish start) (input : Octets) :
    (c.compress input).2.CanFinish start ∧ (c.compress input).2.isClosed = c.isClosed ∧
      (c.compress input).2.finished = c.finished := by
  cases hf : c.finished with
  | true =>
    rw [compress_of_finished hf]
    exact ⟨h, rfl, hf⟩
  | false =>
    cases he : c.engine with
    | none =>
      rw [compress_of_closed hf he]
      exact ⟨h, rfl, hf⟩
    | some e =>
      rw [isClosed_of_engine he]
      have hfed := reached_feed (h hf e he) input
      cases ha : (feed e input).1 with
      | error cause =>
        rw [compress_of_error hf he ha]
        exact ⟨fun _ e' he' => Option.some.inj he' ▸ hfed, rfl, hf⟩
      | ok first =>
        have hflushed : Reached start false (c.flushing (feed e input).2).2 := by
          unfold flushing
          split
          · exact reached_drain hfed
          · exact hfed
        rw [compress_of_ok hf he ha]
        exact ⟨fun _ e' he' => Option.some.inj he' ▸ hflushed, rfl, hf⟩

/-- **What one call does**: a close closes a compressor, and a finish finishes it unless it was
closed before. -/
theorem perform_keeps (hs : CanEnd start) (h : c.CanFinish start) (call : Call) :
    let t := (Compressor.perform c call).2
    t.CanFinish start ∧ (t.isClosed = true ↔ c.isClosed = true ∨ call = .close) ∧
      (t.finished = true ↔ c.finished = true ∨ call = .finish ∧ c.isClosed = false) := by
  intro t
  cases call with
  | compress input =>
    obtain ⟨hkept, hclosed, hfinished⟩ : t.CanFinish start ∧ t.isClosed = c.isClosed ∧
      t.finished = c.finished := compress_keeps h input
    exact ⟨hkept, by simp [hclosed], by simp [hfinished]⟩
  | finish =>
    have ht : t = c.finish.2 := rfl
    rw [ht]
    cases hf : c.finished with
    | true =>
      rw [finish_of_finished hf]
      exact ⟨h, by simp, by simp [hf]⟩
    | false =>
      cases he : c.engine with
      | none =>
        rw [finish_of_closed hf he]
        exact ⟨h, by simp, by simp [hf, isClosed, he]⟩
      | some e =>
        obtain ⟨out, hout⟩ := drain_of_canEnd hs (h hf e he)
        rw [finish_of_drain hf he hout]
        exact ⟨nofun, by simp [isClosed, he], by simp [isClosed, he]⟩
  | close =>
    have ht : t = { c with engine := none } := rfl
    rw [ht]
    exact ⟨nofun, by simp [isClosed], by simp⟩

/-- **What any calls come to**: a close closes a compressor, and a finish finishes it unless there
was a close before. -/
theorem session_keeps (hs : CanEnd start) (h : c.CanFinish start) (calls : List Call) :
    let t := (Compressor.session c calls).last
    t.CanFinish start ∧ (t.isClosed = true ↔ c.isClosed = true ∨ .close ∈ calls) ∧
      (t.finished = true ↔
        c.finished = true ∨ c.isClosed = false ∧ .finish ∈ calls.takeWhile (· != .close)) := by
  induction calls generalizing c with
  | nil => exact ⟨h, by simp [Compressor.session], by simp [Compressor.session]⟩
  | cons call calls ih =>
    intro t
    obtain ⟨hkept, hclosed, hfinished⟩ := perform_keeps hs h call
    obtain ⟨hlast, hclosed', hfinished'⟩ := ih hkept
    have hopen : (Compressor.perform c call).2.isClosed = false ↔
        c.isClosed = false ∧ call ≠ .close := by
      rw [← Bool.not_eq_true, hclosed, not_or, Bool.not_eq_true]
    refine ⟨hlast, ?_, ?_⟩
    · rw [hclosed] at hclosed'
      rw [List.mem_cons, @eq_comm _ Call.close, ← or_assoc]
      exact hclosed'
    · rw [hfinished, hopen] at hfinished'
      refine Iff.trans hfinished' ?_
      -- what stands before the first close begins with this call, unless it is one
      cases call with
      | compress input => simp
      | finish => cases c.isClosed <;> simp
      | close => simp

end StreamCompressor

namespace Compressor

variable {σ : Type} [Compressor σ] [Closeable σ]

/-- **How a compressor answers** when it is finished, closed, both or neither. -/
structure Orderly (s : σ) : Prop where
  close_ok : (close s).1 = .ok ()
  compress_ok : ∀ input out, (compress s input).1 = .ok out →
    isFinished s = false ∧ Closeable.isClosed s = false
  compress_of_finished : isFinished s = true →
    ∀ input, (compress s input).1 = .error ⟨"compressor already finished"⟩
  compress_of_closed : isFinished s = false → Closeable.isClosed s = true →
    ∀ input, (compress s input).1 = .error ⟨"compressor is closed"⟩
  finish_of_open : Closeable.isClosed s = false → ∃ out, (finish s).1 = .ok out
  finish_of_finished : isFinished s = true → (finish s).1 = .ok []
  finish_of_closed : isFinished s = false → Closeable.isClosed s = true →
    (finish s).1 = .error ⟨"compressor is closed"⟩ ∧ isFinished (finish s).2 = false
  /-- A call that fails leaves it finished or not, closed or not, as it was. -/
  refused : ∀ call cause, (perform s call).1 = .error cause →
    isFinished (perform s call).2 = isFinished s ∧
      Closeable.isClosed (perform s call).2 = Closeable.isClosed s

/-- **The protocol of calls.** These calls were made of a compressor, and any may follow. -/
structure KeepsProtocol (s : σ) (calls : List Call) : Prop where
  closed_iff : Closeable.isClosed (session s calls).last = true ↔ .close ∈ calls
  /-- Only a finish before the first close counts. -/
  finished_iff : isFinished (session s calls).last = true ↔ .finish ∈ calls.takeWhile (· != .close)
  stays_closed : Closeable.isClosed (session s calls).last = true →
    ∀ more, Closeable.isClosed (session s (calls ++ more)).last = true
  stays_finished : isFinished (session s calls).last = true →
    ∀ more, isFinished (session s (calls ++ more)).last = true
  orderly : Orderly (session s calls).last

/-- What holds of a compressor holds of the box it is in. -/
theorem orderly_boxed {s : σ} (h : Orderly s) : Orderly (Boxed.mk s) where
  close_ok := h.close_ok
  compress_ok := h.compress_ok
  compress_of_finished := h.compress_of_finished
  compress_of_closed := h.compress_of_closed
  finish_of_open := h.finish_of_open
  finish_of_finished := h.finish_of_finished
  finish_of_closed := h.finish_of_closed
  refused call cause := by
    rw [perform_boxed]
    exact h.refused call cause

theorem keepsProtocol_boxed {s : σ} {calls : List Call} (h : KeepsProtocol s calls) :
    KeepsProtocol (Boxed.mk s) calls where
  closed_iff := by
    rw [session_boxed]
    exact h.closed_iff
  finished_iff := by
    rw [session_boxed]
    exact h.finished_iff
  stays_closed hc more := by
    rw [session_boxed] at hc ⊢
    exact h.stays_closed hc more
  stays_finished hf more := by
    rw [session_boxed] at hf ⊢
    exact h.stays_finished hf more
  orderly := by
    rw [session_boxed]
    exact orderly_boxed h.orderly

end Compressor

namespace StreamCompressor

variable {ε : Type} [Engine ε] {start : ε} {c : StreamCompressor ε} {engine : Coding → ε}

open Compressor (session Orderly KeepsProtocol)

/-- A compressor that was not closed can be finished, for the first time or again. -/
theorem finish_of_open (hs : CanEnd start) (h : c.CanFinish start) (hc : c.isClosed = false) :
    ∃ out, c.finish.1 = .ok out := by
  cases hf : c.finished with
  | true => exact ⟨[], by rw [finish_of_finished hf]⟩
  | false =>
    obtain ⟨e, he⟩ := Option.isSome_iff_exists.1 (Option.isNone_eq_false_iff.1 hc)
    obtain ⟨out, hout⟩ := drain_of_canEnd hs (h hf e he)
    exact ⟨out, by rw [finish_of_drain hf he hout]⟩

/-- **A stream compressor answers in order**, whatever it has come to. -/
theorem orderly_of_canFinish (hs : CanEnd start) (h : c.CanFinish start) : Orderly c where
  close_ok := rfl
  compress_ok input out ha := by
    change (c.compress input).1 = .ok out at ha
    change c.finished = false ∧ c.isClosed = false
    cases hf : c.finished with
    | true =>
      rw [compress_of_finished hf] at ha
      cases ha
    | false =>
      cases he : c.engine with
      | none =>
        rw [compress_of_closed hf he] at ha
        cases ha
      | some e => exact ⟨rfl, isClosed_of_engine he⟩
  compress_of_finished hf input := congrArg Prod.fst (compress_of_finished hf input)
  compress_of_closed hf hc input := by
    have he : c.engine = none := Option.isNone_iff_eq_none.1 hc
    exact congrArg Prod.fst (compress_of_closed hf he input)
  finish_of_open hc := finish_of_open hs h hc
  finish_of_finished hf := congrArg Prod.fst (finish_of_finished hf)
  finish_of_closed hf hc := by
    have he : c.engine = none := Option.isNone_iff_eq_none.1 hc
    have hfin : Compressor.finish c = (.error alreadyClosed, c) := finish_of_closed hf he
    rw [hfin]
    exact ⟨rfl, hf⟩
  refused call cause ha := by
    cases call with
    | compress input =>
      obtain ⟨-, hclosed, hfinished⟩ := compress_keeps h input
      exact ⟨hfinished, hclosed⟩
    | finish =>
      change c.finish.1 = .error cause at ha
      change c.finish.2.finished = c.finished ∧ c.finish.2.isClosed = c.isClosed
      cases hc : c.isClosed with
      | true =>
        cases hf : c.finished with
        | true => simp [finish_of_finished hf, hf, hc]
        | false => simp [finish_of_closed hf (Option.isNone_iff_eq_none.1 hc), hf, hc]
      | false =>
        obtain ⟨out, hout⟩ := finish_of_open hs h hc
        cases ha.symm.trans hout
    | close => cases ha

/-- **The protocol of calls.** An engine that can be ended is driven by a stream compressor of any
coding, flushing or not, itself or in a box, through any calls in any order. The compressor is
closed just if there was a close, and finished just if there was a finish before the first one; and
by that it answers. -/
theorem keeps_protocol (hs : ∀ coding, CanEnd (engine coding)) (coding : Coding) (flush : Bool)
    (calls : List Call) :
    KeepsProtocol (StreamCompressor.start (engine coding) flush) calls ∧
      KeepsProtocol (Boxed.mk (StreamCompressor.start (engine coding) flush)) calls := by
  let c := StreamCompressor.start (engine coding) flush
  have hstart : c.CanFinish (engine coding) := fun _ e he => Option.some.inj he ▸ .start
  obtain ⟨hlast, hclosed, hfinished⟩ := session_keeps (hs coding) hstart calls
  have hmore (more : List Call) := session_keeps (hs coding) hlast more
  have happend (more : List Call) : (session c (calls ++ more)).last =
      (session (session c calls).last more).last := by rw [Compressor.session_append]
  have hkeeps : KeepsProtocol c calls := {
    closed_iff := hclosed.trans (or_iff_right Bool.false_ne_true)
    finished_iff := hfinished.trans ((or_iff_right Bool.false_ne_true).trans (and_iff_right rfl))
    stays_closed := fun hc more => by
      rw [happend]
      exact (hmore more).2.1.2 (.inl hc)
    stays_finished := fun hf more => by
      rw [happend]
      exact (hmore more).2.2.2 (.inl hf)
    orderly := orderly_of_canFinish (hs coding) hlast }
  exact ⟨hkeeps, Compressor.keepsProtocol_boxed hkeeps⟩

/-- A piece is taken, the compressor is finished and closed, and then it is finished again and given
another piece, in a box. The second finish gives nothing, and the piece comes too late. -/
theorem keeps_protocol_of_late_calls :
    let calls : List Call := [.compress [1, 2], .finish, .close]
    let b := Boxed.mk (StreamCompressor.start (Stored.Encoder.start .deflate) true)
    let last := (session b calls).last
    (∀ coding, CanEnd (Stored.Encoder.start coding)) ∧ Compressor.isFinished last = true ∧
      Closeable.isClosed last = true ∧ (Compressor.finish last).1 = .ok [] ∧
      (Compressor.compress last [3]).1 = .error ⟨"compressor already finished"⟩ := by
  intro calls b last
  have hs (coding : Coding) : CanEnd (Stored.Encoder.start coding) :=
    Stored.Encoder.canEnd_start coding
  have hb : KeepsProtocol b calls := (keeps_protocol hs .deflate true calls).2
  have hf : Compressor.isFinished last = true := hb.finished_iff.2 (by decide)
  have hc : Closeable.isClosed last = true := hb.closed_iff.2 (by decide)
  exact ⟨hs, hf, hc, hb.orderly.finish_of_finished hf, hb.orderly.compress_of_finished hf [3]⟩

end StreamCompressor

end ContentCoding
