import ContentCoding.Compressor.Session
import ContentCoding.Proofs.Flushing

/-!
# Calls in any order

A stream compressor may be called for anything at any time: with pieces that are empty or greater
than its buffer, after it was finished, and after it was closed. Some calls are refused. The others
make one stream, of just the pieces that were taken.

* `Stands`: what a compressor has come to, by the transcript of its engine.
* `compress_of_refused`: a piece that is refused leaves the compressor as it is.
* `stands_perform`, `stands_session`: every call, and every session, goes on with the transcript.
* `holds_session`: **what a session gave reads as what it took**, whatever was called for.
-/

namespace ContentCoding

open Engine Stored

/-- **What is assumed of encoders**, and of what reads their streams. They get on. What one gave out
reads as the beginning of what it took, at each point; as all of it once its stream has ended; and
as all of it, but not ended, once a flush is done. -/
structure Engine.Readable {ε : Type} [Engine ε] (engine : Coding → ε)
    (read : Coding → Octets → Reading) : Prop where
  getsOn : GetsOn engine
  part {coding : Coding} {mode : Mode} {pieces : List Octets} {given : Octets} {e : ε} :
    Transcript (engine coding) mode pieces given e → (read coding given).Sound pieces.flatten
  whole : Faithful engine fun coding bytes content => read coding bytes = ⟨content, .ended⟩
  flushed : Flushes engine fun coding bytes content =>
    content ≠ [] → read coding bytes = ⟨content, .unfinished⟩

/-- Stored encoders are read by the reader of their streams. -/
theorem Stored.Encoder.readable_start :
    Readable Encoder.start fun coding => (Stored.layout coding).read where
  getsOn := takesInput_start.getsOn
  part h := by
    obtain ⟨bs, hfit, hin, hfront⟩ := front_of_transcript h
    exact hin ▸ Layout.read_part hfit hfront
  whole := faithful_start
  flushed _ _ _ _ _ _ h hm hp ho hdone _ := flushes_unfinished_start _ _ _ _ _ _ h hm hp ho hdone

namespace StreamCompressor

variable {ε : Type} [Engine ε] {engine : Coding → ε} {coding : Coding} {start : ε}
  {pieces : List Octets} {given input out : Octets} {c : StreamCompressor ε} {cause : Cause}

/-- **What a compressor has come to**: it is at work, or was closed before its stream has ended, or
its stream has ended. The transcript is that of its engine, which a close gives up. -/
inductive Stands (start : ε) (pieces : List Octets) (given : Octets) : StreamCompressor ε → Prop
  | working {c : StreamCompressor ε} : c.Running start pieces given → Stands start pieces given c
  | closed {c : StreamCompressor ε} {e : ε} : c.finished = false → c.engine = none →
      Transcript start .taking pieces given e → Stands start pieces given c
  | ended {c : StreamCompressor ε} {e : ε} : c.finished = true →
      Transcript start .ended pieces given e → Stands start pieces given c

/-- There is a transcript, whatever a compressor has come to. -/
theorem Stands.transcript (h : c.Stands start pieces given) :
    ∃ mode e, Transcript start mode pieces given e := by
  cases h with
  | working hr =>
    obtain ⟨-, e, -, ht⟩ := hr
    exact ⟨_, e, ht⟩
  | closed _ _ ht | ended _ ht => exact ⟨_, _, ht⟩

/-- **A piece that a compressor at work refuses** is empty, and changes nothing. -/
theorem compress_of_running (hs : GetsOn engine) (h : c.Running (engine coding) pieces given)
    (ha : (c.compress input).1 = .error cause) :
    input = [] ∧ c.compress input = (.error cause, c) := by
  obtain ⟨hf, e, he, ht⟩ := id h
  cases hfeed : (feed e input).1 with
  | ok first =>
    obtain ⟨out, hout⟩ := compress_of_fed hs h he hfeed
    cases ha.symm.trans hout
  | error cause' =>
    have hi : input = [] := by
      by_contra hne
      obtain ⟨out, hout⟩ := feed_filled hs ht hne
      cases hfeed.symm.trans hout
    subst hi
    -- the engine refuses it at once, before it took anything
    have hsame : (feed e []).2 = e := by
      cases henc : Engine.encode e [] bufferSize with
      | error cause'' => rw [feed_of_error henc]
      | ok r =>
        rw [feed_of_done henc (Nat.zero_le _)] at hfeed
        cases hfeed
    rw [compress_of_error hf he hfeed, hsame, ← he] at ha ⊢
    obtain rfl := Except.error.inj ha
    exact ⟨rfl, rfl⟩

/-- **A piece that is refused** is empty, or comes too late. It leaves the compressor as it is. -/
theorem compress_of_refused (hs : GetsOn engine) (h : c.Stands (engine coding) pieces given)
    (ha : (c.compress input).1 = .error cause) :
    (input = [] ∨ c.finished = true ∨ c.isClosed = true) ∧
      c.compress input = (.error cause, c) := by
  cases h with
  | working hr =>
    obtain ⟨hi, hc⟩ := compress_of_running hs hr ha
    exact ⟨.inl hi, hc⟩
  | closed hf he _ =>
    rw [compress_of_closed hf he] at ha ⊢
    obtain rfl := Except.error.inj ha
    exact ⟨.inr (.inr (by rw [isClosed, he]; rfl)), rfl⟩
  | ended hf _ =>
    rw [compress_of_finished hf] at ha ⊢
    obtain rfl := Except.error.inj ha
    exact ⟨.inr (.inl hf), rfl⟩

/-- A piece that is taken is taken by a compressor at work. -/
theorem running_of_compress (h : c.Stands start pieces given)
    (ha : (c.compress input).1 = .ok out) : c.Running start pieces given := by
  cases h with
  | working hr => exact hr
  | closed hf he _ =>
    rw [compress_of_closed hf he] at ha
    cases ha
  | ended hf _ =>
    rw [compress_of_finished hf] at ha
    cases ha

/-- **Every call goes on with the transcript**: it adds what it took and what it gave. -/
theorem stands_perform (hs : GetsOn engine) (h : c.Stands (engine coding) pieces given)
    (call : Call) :
    let a : Call.Outcome := ⟨call, (Compressor.perform c call).1⟩
    ∃ more : List Octets, more.flatten = a.taken ∧
      (Compressor.perform c call).2.Stands (engine coding) (pieces ++ more) (given ++ a.given) := by
  have hsame {a : Call.Outcome} (ht : a.taken = []) (hg : a.given = []) :
      ∃ more : List Octets, more.flatten = a.taken ∧
        c.Stands (engine coding) (pieces ++ more) (given ++ a.given) :=
    ⟨[], by rw [ht]; rfl, by rwa [hg, List.append_nil, List.append_nil]⟩
  cases call with
  | compress input =>
    simp only [Compressor.perform, show Compressor.compress c input = c.compress input from rfl]
    cases ha : (c.compress input).1 with
    | error cause =>
      rw [(compress_of_refused hs h ha).2]
      exact hsame rfl rfl
    | ok out =>
      obtain ⟨taken, -, hin, hrun⟩ := running_compress (running_of_compress h ha) ha
      exact ⟨taken, hin, .working hrun⟩
  | finish =>
    simp only [Compressor.perform, show Compressor.finish c = c.finish from rfl]
    cases h with
    | working hr =>
      obtain ⟨out, hout⟩ := finish_ok hs hr
      obtain ⟨e, hend⟩ := ended_finish hr hout
      rw [hout]
      exact ⟨[], rfl, .ended (isFinished_finish hout) (by rwa [List.append_nil])⟩
    | closed hf he ht =>
      rw [finish_of_closed hf he]
      exact hsame rfl rfl
    | ended hf ht =>
      rw [finish_of_finished hf]
      exact hsame rfl rfl
  | close =>
    refine ⟨[], rfl, ?_⟩
    rw [List.append_nil, show Call.Outcome.given ⟨.close, _⟩ = [] from rfl, List.append_nil]
    cases h with
    | working hr =>
      obtain ⟨hf, e, -, ht⟩ := hr
      exact .closed hf rfl ht
    | closed hf _ ht => exact .closed hf rfl ht
    | ended hf ht => exact .ended hf ht

/-- **A session goes on with the transcript**, whatever is called for. -/
theorem stands_session (hs : GetsOn engine) (h : c.Stands (engine coding) pieces given)
    (calls : List Call) :
    let s := Compressor.session c calls
    ∃ more : List Octets, more.flatten = s.taken ∧
      s.last.Stands (engine coding) (pieces ++ more) (given ++ s.given) := by
  induction calls generalizing c pieces given with
  | nil =>
    refine ⟨[], rfl, ?_⟩
    rw [List.append_nil, show (Compressor.session c []).given = [] from rfl, List.append_nil]
    exact h
  | cons call calls ih =>
    obtain ⟨first, hfirst, hnext⟩ := stands_perform hs h call
    obtain ⟨more, hmore, hlast⟩ := ih hnext
    refine ⟨first ++ more, ?_, ?_⟩
    · rw [List.flatten_append, hfirst, hmore]
      rfl
    · rwa [List.append_assoc, List.append_assoc] at hlast

/-- What has ended stays so, and only a finish that is answered ends it. -/
theorem finished_session (calls : List Call)
    (h : c.finished = true ∨
      ∃ out, ⟨.finish, .ok out⟩ ∈ (Compressor.session c calls).outcomes) :
    (Compressor.session c calls).last.finished = true := by
  induction calls generalizing c with
  | nil =>
    rcases h with h | ⟨out, hm⟩
    · exact h
    · cases hm
  | cons call calls ih =>
    have hkeep (hc : c.finished = true) : (Compressor.perform c call).2.finished = true := by
      cases call with
      | compress input =>
        change (c.compress input).2.finished = true
        rw [compress_of_finished hc]
        exact hc
      | finish =>
        change c.finish.2.finished = true
        rw [finish_of_finished hc]
        exact hc
      | close => exact hc
    refine ih ?_
    rcases h with h | ⟨out, hm⟩
    · exact .inl (hkeep h)
    · rcases List.mem_cons.1 hm with ha | hm
      · obtain ⟨rfl, hout⟩ := Call.Outcome.mk.inj ha
        exact .inl (isFinished_finish hout.symm)
      · exact .inr ⟨out, hm⟩

theorem alwaysFlush_finish (c : StreamCompressor ε) :
    c.finish.2.alwaysFlush = c.alwaysFlush := by
  unfold finish
  split
  · rfl
  · split
    · rfl
    · split <;> rfl

/-- Whether a compressor flushes is settled when it starts, whatever is called for. -/
theorem alwaysFlush_session (c : StreamCompressor ε) (calls : List Call) :
    (Compressor.session c calls).last.alwaysFlush = c.alwaysFlush := by
  induction calls generalizing c with
  | nil => rfl
  | cons call calls ih =>
    rw [Compressor.session, ih]
    cases call with
    | compress input => exact alwaysFlush_compress c input
    | finish => exact alwaysFlush_finish c
    | close => rfl

open Compressor (session)

/-- **What a compressor gives, whatever it is called for.** These calls were made, and more may
follow. -/
structure Truthful (read : Octets → Reading) (c : StreamCompressor ε) (calls : List Call) :
    Prop where
  /-- What was given is part of a stream, and reads as the beginning of what was taken. -/
  sound : (read (session c calls).given).Sound (session c calls).taken
  /-- Once a finish was answered, the stream has ended, and reads as all that was taken. -/
  ended : ∀ out, ⟨.finish, .ok out⟩ ∈ (session c calls).outcomes →
    read (session c calls).given = ⟨(session c calls).taken, .ended⟩
  /-- A piece that is taken now, if it is not empty, is flushed with all that was taken before. -/
  flushed : c.alwaysFlush = true → ∀ input out, input ≠ [] →
    ((session c calls).last.compress input).1 = .ok out →
      let s := session c (calls ++ [.compress input])
      read s.given = ⟨s.taken, .unfinished⟩
  /-- A piece that is refused now is empty, or comes too late. Nothing would be otherwise without
  it, whatever follows. -/
  refused : ∀ input cause, ((session c calls).last.compress input).1 = .error cause →
    (input = [] ∨ (session c calls).last.finished = true ∨
      (session c calls).last.isClosed = true) ∧
    ∀ more, let made := session c (calls ++ .compress input :: more)
      let omitted := session c (calls ++ more)
      made.given = omitted.given ∧ made.taken = omitted.taken ∧ made.last = omitted.last ∧
        ∃ later, made.outcomes =
            (session c calls).outcomes ++ ⟨.compress input, .error cause⟩ :: later ∧
          omitted.outcomes = (session c calls).outcomes ++ later

/-- **A stream compressor is truthful in any order of calls.** For each coding, flushing or not, and
after any calls, pieces of any size and empty ones among them: what it gave is part of a stream, and
reads as the beginning of the pieces that were taken; as all of them, with the stream ended, once a
finish was answered; and as all of them, before the end, behind each piece that it flushed. What it
refuses changes nothing. -/
theorem truthful_session {read : Coding → Octets → Reading} (hs : Readable engine read)
    (coding : Coding) (flush : Bool) (calls : List Call) :
    (StreamCompressor.start (engine coding) flush).Truthful (read coding) calls := by
  let c := StreamCompressor.start (engine coding) flush
  have hstart : c.Stands (engine coding) [] [] := .working (running_start _ _)
  obtain ⟨pieces, hin, hlast⟩ := stands_session hs.getsOn hstart calls
  rw [List.nil_append, List.nil_append] at hlast
  refine ⟨?_, fun out hm => ?_, fun hflush input out hi ha => ?_, fun input cause ha => ?_⟩
  · obtain ⟨mode, e, ht⟩ := hlast.transcript
    exact hin ▸ hs.part ht
  · have hfin : (session c calls).last.finished = true := finished_session calls (.inr ⟨out, hm⟩)
    cases hlast with
    | working hr => cases hfin.symm.trans hr.1
    | closed hf _ _ => cases hfin.symm.trans hf
    | ended _ ht => exact hin ▸ hs.whole _ _ _ _ ht
  · have hrun := running_of_compress hlast ha
    have hflushes : (session c calls).last.alwaysFlush = true :=
      (alwaysFlush_session c calls).trans hflush
    have hread := decodes_of_compress hs.flushed hrun hflushes ha (by simp [hi])
    rw [hin] at hread
    intro s
    obtain ⟨hgiven, htaken⟩ : s.given = (session c calls).given ++ out ∧
        s.taken = (session c calls).taken ++ input := Compressor.session_concat_of_ok ha
    rw [hgiven, htaken]
    exact hread
  · obtain ⟨hwhy, hsame⟩ := compress_of_refused hs.getsOn hlast ha
    exact ⟨hwhy, Compressor.session_of_refused hsame⟩

section stored

/-- A piece is taken, the stream ends, and another piece is refused. What was given is a whole
stream of gzip, which reads as the first piece. -/
theorem truthful_of_late_piece :
    let read := fun coding => (Stored.layout coding).read
    let c := StreamCompressor.start (Encoder.start .gzip) true
    let s := session c [.compress [1, 2], .finish, .compress [3]]
    Readable Encoder.start read ∧ s.taken = [1, 2] ∧ read .gzip s.given = ⟨[1, 2], .ended⟩ ∧
      s.outcomes.map Call.Outcome.call = [.compress [1, 2], .finish, .compress [3]] ∧
      (s.outcomes.map Call.Outcome.answer).getLast? = some (.error alreadyFinished) := by
  intro read c s
  have hs : Readable Encoder.start read := Encoder.readable_start
  have hrun : c.Running (Encoder.start .gzip) [] [] := running_start _ _
  obtain ⟨out, hout⟩ : ∃ out, (c.compress [1, 2]).1 = .ok out := by
    cases ha : (c.compress [1, 2]).1 with
    | ok out => exact ⟨out, rfl⟩
    | error cause => cases (compress_of_running hs.getsOn hrun ha).1
  obtain ⟨_, -, -, hnext⟩ := running_compress hrun hout
  obtain ⟨rest, hrest⟩ := finish_ok hs.getsOn hnext
  have hlate := compress_of_finished (isFinished_finish hrest) [3]
  have houtcomes : s.outcomes =
      [⟨.compress [1, 2], .ok out⟩, ⟨.finish, .ok rest⟩,
        ⟨.compress [3], .error alreadyFinished⟩] := by
    change [(⟨_, (c.compress [1, 2]).1⟩ : Call.Outcome), ⟨_, (c.compress [1, 2]).2.finish.1⟩,
      ⟨_, ((c.compress [1, 2]).2.finish.2.compress [3]).1⟩] = _
    rw [hout, hrest, hlate]
  have htaken : s.taken = [1, 2] := by rw [Session.taken, houtcomes]; rfl
  have hfinish : ⟨.finish, .ok rest⟩ ∈ s.outcomes := by simp [houtcomes]
  have hended := (truthful_session hs .gzip true _).ended rest hfinish
  exact ⟨hs, htaken, htaken ▸ hended, by rw [houtcomes]; rfl, by rw [houtcomes]; rfl⟩

end stored

end StreamCompressor

end ContentCoding
