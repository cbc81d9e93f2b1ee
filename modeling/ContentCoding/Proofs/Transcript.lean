import ContentCoding.Proofs.Writing
import ContentCoding.Selector

/-!
# Transcripts of engines

What is assumed of an engine, or proved of one, is said of its transcripts: the pieces of input
that it took and the octets that it gave out, call by call. A stream compressor keeps a transcript
of its engine, and so does the cycle that holds it.

* `feed_transcript`, `drain_transcript`: the loops go on from a transcript to a transcript.
* `running_send`: a chunk of a coded response is put into the transcript whole, and what leaves is
  what the engine gave out.
* `ended_send`, `ended_sendWhole`: the last chunk and the whole response end the transcript.
-/

namespace ContentCoding

namespace Engine

variable {ε : Type} [Engine ε] {start e : ε} {pieces : List Octets} {given input : Octets}

/-- **What an engine is at.** It takes input; or it was not done at the last call with what it was
asked for; or its stream has ended. -/
inductive Mode
  | taking
  | amid (d : Demand)
  | ended
  deriving DecidableEq

/-- What an engine is at once it has done what it was asked for. -/
def done : Demand → Mode
  | .flush => .taking
  | .finish => .ended

/-- **A transcript**: the pieces that an engine took since its start, and all that it gave out.
Nothing is flushed before there was a piece. -/
inductive Transcript (start : ε) : Mode → List Octets → Octets → ε → Prop
  | start : Transcript start .taking [] [] start
  | encode {pieces : List Octets} {given input : Octets} {e : ε} {r : Intake ε} :
      Transcript start .taking pieces given e → Engine.encode e input bufferSize = .ok r →
      Transcript start .taking (pieces ++ [input.take r.taken]) (given ++ r.written) r.next
  | ask {mode : Mode} {d : Demand} {pieces : List Octets} {given : Octets} {e : ε} {o : Outflow ε} :
      Transcript start mode pieces given e → mode = .taking ∨ mode = .amid d →
      (d = .flush → pieces ≠ []) → Engine.ask e d bufferSize = .ok o →
      Transcript start (if o.complete then done d else .amid d) pieces (given ++ o.written) o.next

section loops

variable {r : Intake ε} {o : Outflow ε} {d : Demand} {c : Cause}

theorem feed_of_error (he : encode e input bufferSize = .error c) :
    feed e input = (.error c, e) := by
  rw [feed]
  split <;> simp_all

theorem feed_of_done (he : encode e input bufferSize = .ok r) (hr : input.length ≤ r.taken) :
    feed e input = (.ok r.written, r.next) := by
  rw [feed]
  split
  · rename_i h
    cases he.symm.trans h
  · rename_i h
    obtain rfl := Except.ok.inj (he.symm.trans h)
    exact dif_pos hr

theorem feed_of_more (he : encode e input bufferSize = .ok r) (hr : ¬ input.length ≤ r.taken) :
    feed e input = ((feed r.next (input.drop r.taken)).1.map (r.written ++ ·),
      (feed r.next (input.drop r.taken)).2) := by
  rw [feed]
  split
  · rename_i h
    cases he.symm.trans h
  · rename_i h
    obtain rfl := Except.ok.inj (he.symm.trans h)
    exact dif_neg hr

theorem drain_of_error (he : ask e d bufferSize = .error c) : drain d e = (.error c, e) := by
  rw [drain]
  split <;> simp_all

theorem drain_of_done (he : ask e d bufferSize = .ok o) (hc : o.complete = true) :
    drain d e = (.ok o.written, o.next) := by
  rw [drain]
  split
  · rename_i h
    cases he.symm.trans h
  · rename_i h
    obtain rfl := Except.ok.inj (he.symm.trans h)
    exact dif_pos hc

theorem drain_of_more (he : ask e d bufferSize = .ok o) (hc : ¬ o.complete = true) :
    drain d e = ((drain d o.next).1.map (o.written ++ ·), (drain d o.next).2) := by
  rw [drain]
  split
  · rename_i h
    cases he.symm.trans h
  · rename_i h
    obtain rfl := Except.ok.inj (he.symm.trans h)
    exact dif_neg hc

end loops

/-- Input that was fed is all in the transcript, in one piece or more. -/
theorem feed_transcript {out : Octets} (h : Transcript start .taking pieces given e)
    (hf : (feed e input).1 = .ok out) :
    ∃ taken : List Octets, taken ≠ [] ∧ taken.flatten = input ∧
      Transcript start .taking (pieces ++ taken) (given ++ out) (feed e input).2 := by
  -- along the loop: what it has taken by then stands in the transcript, in pieces of its own
  induction e, input using feed.induct generalizing pieces given out with
  | case1 e input c he =>
    rw [feed_of_error he] at hf
    cases hf
  | case2 e input r he hr =>
    rw [feed_of_done he hr] at hf ⊢
    obtain rfl := Except.ok.inj hf
    refine ⟨[input.take r.taken], by simp, ?_, h.encode he⟩
    rw [List.flatten_singleton, List.take_of_length_le hr]
  | case3 e input r he hr ih =>
    rw [feed_of_more he hr] at hf ⊢
    obtain ⟨more, hm, rfl⟩ := ok_of_map hf
    obtain ⟨taken, -, hin, ht⟩ := ih (h.encode he) hm
    refine ⟨input.take r.taken :: taken, by simp, ?_, ?_⟩
    · rw [List.flatten_cons, hin, List.take_append_drop]
    · simpa only [List.append_assoc, List.singleton_append] using ht

/-- What was asked for is done in the end, unless it fails. -/
theorem drain_transcript {mode : Mode} {d : Demand} {out : Octets}
    (h : Transcript start mode pieces given e) (hm : mode = .taking ∨ mode = .amid d)
    (hp : d = .flush → pieces ≠ []) (hd : (drain d e).1 = .ok out) :
    Transcript start (done d) pieces (given ++ out) (drain d e).2 := by
  induction e using @drain.induct ε _ d generalizing given mode out with
  | case1 e c he =>
    rw [drain_of_error he] at hd
    cases hd
  | case2 e o he hc =>
    rw [drain_of_done he hc] at hd ⊢
    obtain rfl := Except.ok.inj hd
    have ht := h.ask hm hp he
    rwa [if_pos hc] at ht
  | case3 e o he hc ih =>
    rw [drain_of_more he hc] at hd ⊢
    have ht := h.ask hm hp he
    -- not complete: the loop goes on amid the same demand
    rw [if_neg hc] at ht
    obtain ⟨more, hr, rfl⟩ := ok_of_map hd
    have hmore := ih ht (.inr rfl) hr
    rwa [List.append_assoc] at hmore

/-- **Whether the encoder of a coding takes an empty piece**, first or later. -/
def takesEmpty (coding : Coding) (first : Bool) : Bool :=
  match coding with
  | .zstd | .brotli => true
  | .gzip => first
  | .deflate => false

/-- The failure of an encoder that was given nothing. -/
def starved : Cause := ⟨"unexpected BufError"⟩

/-- **How encoders take input**: always, if there is some; an empty piece as the coding has it. What
they are asked for does not fail. -/
structure TakesInput (engine : Coding → ε) : Prop where
  filled {coding : Coding} {pieces : List Octets} {given input : Octets} {e : ε} :
    Transcript (engine coding) .taking pieces given e → input ≠ [] →
      ∃ r, encode e input bufferSize = .ok r
  empty {coding : Coding} {pieces : List Octets} {given : Octets} {e : ε} :
    Transcript (engine coding) .taking pieces given e → takesEmpty coding pieces.isEmpty = true →
      ∃ r, encode e [] bufferSize = .ok r
  starves {coding : Coding} {pieces : List Octets} {given : Octets} {e : ε} :
    Transcript (engine coding) .taking pieces given e → takesEmpty coding pieces.isEmpty = false →
      encode e [] bufferSize = .error starved
  asked {coding : Coding} {mode : Mode} {pieces : List Octets} {given : Octets} {e : ε}
      {d : Demand} :
    Transcript (engine coding) mode pieces given e → mode = .taking ∨ mode = .amid d →
      (d = .flush → pieces ≠ []) → ∃ o, ask e d bufferSize = .ok o

/-- **That encoders get on**: they take input that is not empty, and do what they are asked for. -/
structure GetsOn (engine : Coding → ε) : Prop where
  filled {coding : Coding} {pieces : List Octets} {given input : Octets} {e : ε} :
    Transcript (engine coding) .taking pieces given e → input ≠ [] →
      ∃ r, encode e input bufferSize = .ok r
  asked {coding : Coding} {mode : Mode} {pieces : List Octets} {given : Octets} {e : ε}
      {d : Demand} :
    Transcript (engine coding) mode pieces given e → mode = .taking ∨ mode = .amid d →
      (d = .flush → pieces ≠ []) → ∃ o, ask e d bufferSize = .ok o

theorem TakesInput.getsOn {engine : Coding → ε} (hs : TakesInput engine) : GetsOn engine where
  filled := hs.filled
  asked := hs.asked

/-- **That encoders are faithful**: what one gave out up to its end is a stream of its coding, and
reads as the input that it took. -/
def Faithful (engine : Coding → ε) (reads : Coding → Octets → Octets → Prop) : Prop :=
  ∀ (coding : Coding) (pieces : List Octets) (given : Octets) (e : ε),
    Transcript (engine coding) .ended pieces given e → reads coding given pieces.flatten

/-- **That flushed input is decodable**: once an engine says that a flush is done, what it gave out so
far decodes to all the input that it took. -/
def Flushes (engine : Coding → ε) (decodes : Coding → Octets → Octets → Prop) : Prop :=
  ∀ (coding : Coding) (mode : Mode) (pieces : List Octets) (given : Octets) (e : ε) (o : Outflow ε),
    Transcript (engine coding) mode pieces given e → mode = .taking ∨ mode = .amid .flush →
      pieces ≠ [] → ask e .flush bufferSize = .ok o → o.complete = true →
      decodes coding (given ++ o.written) pieces.flatten

end Engine

open Engine

variable {ε : Type} [Engine ε] {start : ε} {pieces : List Octets} {given input out : Octets}

namespace StreamCompressor

variable {c : StreamCompressor ε}

/-- **A compressor at work**: its engine takes input, and has this transcript. -/
def Running (c : StreamCompressor ε) (start : ε) (pieces : List Octets) (given : Octets) : Prop :=
  c.finished = false ∧ ∃ e, c.engine = some e ∧ Transcript start .taking pieces given e

theorem running_start (e : ε) (alwaysFlush : Bool) :
    (StreamCompressor.start e alwaysFlush).Running e [] [] := ⟨rfl, e, rfl, .start⟩

/-- What is given out behind a piece that was taken. -/
def flushing (c : StreamCompressor ε) (e : ε) : Except Cause Octets × ε :=
  if c.alwaysFlush then drain .flush e else (.ok [], e)

theorem compress_of_error {e : ε} {cause : Cause} (hf : c.finished = false)
    (he : c.engine = some e) (h : (feed e input).1 = .error cause) :
    c.compress input = (.error cause, { c with engine := some (feed e input).2 }) := by
  obtain ⟨e', hfeed⟩ : ∃ e', feed e input = (.error cause, e') := ⟨_, Prod.ext h rfl⟩
  simp [compress, hf, he, hfeed]

theorem compress_of_ok {e : ε} (hf : c.finished = false) (he : c.engine = some e)
    (h : (feed e input).1 = .ok out) :
    c.compress input = ((c.flushing (feed e input).2).1.map (out ++ ·),
      { c with engine := some (c.flushing (feed e input).2).2 }) := by
  obtain ⟨e', hfeed⟩ : ∃ e', feed e input = (.ok out, e') := ⟨_, Prod.ext h rfl⟩
  cases hflush : c.alwaysFlush <;> simp [compress, flushing, hf, he, hfeed, hflush, Except.map]

theorem answer_finish {e : ε} (hf : c.finished = false) (he : c.engine = some e) :
    c.finish.1 = (drain .finish e).1 := by
  cases hd : drain .finish e with
  | mk answer e' => cases answer <;> simp [finish, hf, he, hd]

/-- What flushing gives out belongs to the pieces so far. -/
theorem flushing_transcript {e : ε} (h : Transcript start .taking pieces given e)
    (hp : pieces ≠ []) (hd : (c.flushing e).1 = .ok out) :
    Transcript start .taking pieces (given ++ out) (c.flushing e).2 := by
  unfold flushing at hd ⊢
  split at hd
  · rename_i hflush
    rw [if_pos hflush]
    exact drain_transcript h (.inl rfl) (fun _ => hp) hd
  · rename_i hflush
    obtain rfl := Except.ok.inj hd
    rw [if_neg hflush, List.append_nil]
    exact h

/-- A piece that is taken goes into the transcript, with all that is given out for it. -/
theorem running_compress (h : c.Running start pieces given) (ha : (c.compress input).1 = .ok out) :
    ∃ taken : List Octets, taken ≠ [] ∧ taken.flatten = input ∧
      (c.compress input).2.Running start (pieces ++ taken) (given ++ out) := by
  obtain ⟨hf, e, he, ht⟩ := h
  cases hfeed : (feed e input).1 with
  | error cause =>
    rw [compress_of_error hf he hfeed] at ha
    cases ha
  | ok first =>
    obtain ⟨taken, hne, hin, hfed⟩ := feed_transcript ht hfeed
    -- an empty piece is a piece too, so that a flush is allowed behind it
    have hp : pieces ++ taken ≠ [] := by simp [hne]
    rw [compress_of_ok hf he hfeed] at ha ⊢
    obtain ⟨more, hflush, rfl⟩ := ok_of_map ha
    refine ⟨taken, hne, hin, hf, _, rfl, ?_⟩
    rw [← List.append_assoc]
    exact flushing_transcript hfed hp hflush

/-- What ends the coded form ends the transcript. -/
theorem ended_finish (h : c.Running start pieces given) (ha : c.finish.1 = .ok out) :
    ∃ e, Transcript start .ended pieces (given ++ out) e := by
  obtain ⟨hf, e, he, ht⟩ := h
  rw [answer_finish hf he] at ha
  exact ⟨_, drain_transcript (d := .finish) ht (.inl rfl) nofun ha⟩

end StreamCompressor

namespace Cycle

variable {cy : Cycle (StreamCompressor ε)} {k : Chunk} {ms : List Message}

/-- **A coded response on its way**: its compressor is open and at work. -/
def Running (cy : Cycle (StreamCompressor ε)) (start : ε) (pieces : List Octets)
    (given : Octets) : Prop :=
  ∃ label l, cy.treatment = .encoded label l ∧ l.closed = false ∧
    l.compressor.Running start pieces given

omit [Engine ε] in
theorem isSkip_of_encoded {label : Octets} {l : Lease (StreamCompressor ε)}
    (ht : cy.treatment = .encoded label l) : cy.isSkip = false := by
  simp [isSkip, ht]

/-- A piece and the end of the body are answered as the compressor answers them, which can always
be closed. -/
theorem answers_of_encoded {label : Octets} {l : Lease (StreamCompressor ε)}
    (ht : cy.treatment = .encoded label l) (hl : l.closed = false)
    (hf : l.compressor.finished = false) (input : Octets) :
    (cy.compress input).answer = (l.compressor.compress input).1.mapError .compression ∧
      cy.finish.answer = l.compressor.finish.1.mapError .compression := by
  have hfin : l.finish.answer = l.compressor.finish.1.mapError .compression ∧
      l.finish.after.closed = false := by
    have hnot : Compressor.isFinished l.compressor = false := hf
    unfold Lease.finish
    rw [if_neg (by simp [hnot])]
    exact ⟨rfl, hl⟩
  have hclose : l.finish.after.close.answer = .ok () := by
    rw [Lease.close, if_neg (by simp [hfin.2])]
    rfl
  constructor
  · rw [compress, ht]
    rfl
  · simp only [finish, ht, hclose, hfin.1]
    cases l.compressor.finish.1 <;> rfl

theorem running_compress (h : cy.Running start pieces given)
    (ha : (cy.compress input).answer = .ok out) :
    ∃ taken : List Octets, taken ≠ [] ∧ taken.flatten = input ∧
      (cy.compress input).after.Running start (pieces ++ taken) (given ++ out) := by
  obtain ⟨label, l, ht, hl, hr⟩ := h
  rw [(answers_of_encoded ht hl hr.1 input).1] at ha
  obtain ⟨taken, hne, hin, hrun⟩ := StreamCompressor.running_compress hr (ok_of_mapError ha)
  refine ⟨taken, hne, hin, label, ⟨l.id, (l.compressor.compress input).2, l.closed⟩, ?_, hl, hrun⟩
  rw [compress, ht]
  rfl

/-- The end of a coded body ends its transcript. -/
theorem ended_finish (h : cy.Running start pieces given) (ha : cy.finish.answer = .ok out) :
    ∃ e, Transcript start .ended pieces (given ++ out) e := by
  obtain ⟨label, l, ht, hl, hr⟩ := h
  rw [(answers_of_encoded ht hl hr.1 []).2] at ha
  exact StreamCompressor.ended_finish hr (ok_of_mapError ha)

/-- The last piece of a coded body ends its transcript. -/
theorem ended_compressLast (h : cy.Running start pieces given)
    (ha : (cy.compressLast input).answer = .ok out) :
    ∃ (taken : List Octets) (e : ε), taken.flatten = input ∧
      Transcript start .ended (pieces ++ taken) (given ++ out) e := by
  rcases compressLast_cases cy input with ⟨f, -, hl⟩ | ⟨first, hfirst, hl⟩
  · rw [hl] at ha
    cases ha
  · obtain ⟨taken, -, hin, hrun⟩ := running_compress h hfirst
    rw [hl] at ha
    obtain ⟨rest, hrest, rfl⟩ := ok_of_map ha
    obtain ⟨e, hend⟩ := ended_finish hrun hrest
    rw [List.append_assoc] at hend
    exact ⟨taken, e, hin, hend⟩

/-- **A chunk of a coded response** goes into the transcript, and what is given out for it leaves
as one chunk of data, or as none. -/
theorem running_send (h : cy.Running start pieces given) (hk : k.last = false)
    (ha : (cy.send k).answer = .ok ms) :
    ∃ (taken : List Octets) (out : Octets), taken ≠ [] ∧ taken.flatten = k.payload ∧
      ms = Message.data out ∧
      (cy.send k).after.Running start (pieces ++ taken) (given ++ out) := by
  obtain ⟨label, l, ht, -⟩ := id h
  simp only [send, isSkip_of_encoded ht, hk, Bool.false_eq_true, ↓reduceIte, Step.map] at ha ⊢
  obtain ⟨out, hout, rfl⟩ := ok_of_map ha
  obtain ⟨taken, hne, hin, hrun⟩ := running_compress h hout
  exact ⟨taken, out, hne, hin, rfl, hrun⟩

/-- **The last chunk of a coded response** ends the transcript. -/
theorem ended_send (h : cy.Running start pieces given) (hk : k.last = true)
    (ha : (cy.send k).answer = .ok ms) :
    ∃ (taken : List Octets) (out : Octets) (e : ε), taken.flatten = k.payload ∧
      ms = Message.data out ++ [Message.ending k.trailers] ∧
      Transcript start .ended (pieces ++ taken) (given ++ out) e := by
  obtain ⟨label, l, ht, -⟩ := id h
  simp only [send, isSkip_of_encoded ht, hk, Bool.false_eq_true, ↓reduceIte, Step.map] at ha
  obtain ⟨out, hout, rfl⟩ := ok_of_map ha
  obtain ⟨taken, e, hin, hend⟩ := ended_compressLast h hout
  exact ⟨taken, out, e, hin, rfl, hend⟩

/-- **A whole coded response** is one transcript. -/
theorem ended_sendWhole {a : Aggregate} (h : cy.Running start [] [])
    (ha : (cy.sendWhole a).answer = .ok ms) :
    ∃ (taken : List Octets) (out : Octets) (e : ε), taken.flatten = a.payload ∧
      ms = .head (cy.announceWhole a.head out.length) :: Message.data out ++
        [Message.ending a.trailers] ∧
      Transcript start .ended taken out e := by
  obtain ⟨label, l, ht, -⟩ := id h
  simp only [sendWhole, isSkip_of_encoded ht, Bool.false_eq_true, ↓reduceIte, Step.map] at ha
  obtain ⟨out, hout, rfl⟩ := ok_of_map ha
  obtain ⟨taken, e, hin, hend⟩ := ended_compressLast h hout
  exact ⟨taken, out, e, hin, rfl, hend⟩

end Cycle

namespace Negotiator

variable {n : Negotiator (Selector ε)} {head : Head} {r : Request} {body : BodyKind}

omit [Engine ε] in
/-- A selector remembers nothing. -/
theorem decision_negotiate : (n.negotiate head r body).after.decision = n.decision := by
  unfold negotiate
  split
  · rfl
  · rw [Selector.consult_selector]
    cases n.decision.select head r.accept <;> rfl

/-- **A response either passes as it is or starts a transcript** with the engine of the coding that
its label names. -/
theorem negotiate_cases (n : Negotiator (Selector ε)) (head : Head) (r : Request)
    (body : BodyKind) :
    let cy := (n.negotiate head r body).cycle
    cy.isSkip = true ∨ ∃ coding, skipReason? head r body = none ∧
      cy.label? = some (Octets.ofString coding.label) ∧
      cy.Running (n.decision.engine coding) [] [] := by
  unfold negotiate
  split
  · exact .inl rfl
  · rename_i hr
    rw [Selector.consult_selector]
    cases n.decision.select head r.accept with
    | none => exact .inl rfl
    | some coding =>
      refine .inr ⟨coding, hr, rfl, _, _, rfl, rfl, ?_⟩
      exact StreamCompressor.running_start _ _

omit [Engine ε] in
/-- **What is coded was selected**: no rule forbids it, and its compressor starts with the engine of
the coding that its label names. -/
theorem selected_of_encoded {label : Octets} {l : Lease (StreamCompressor ε)}
    (h : (n.negotiate head r body).cycle.treatment = .encoded label l) :
    skipReason? head r body = none ∧ ∃ coding, n.decision.select head r.accept = some coding ∧
      label = Octets.ofString coding.label ∧
      l.compressor = .start (n.decision.engine coding) head.fields.needsFlush := by
  cases hr : skipReason? head r body with
  | some reason =>
    rw [negotiate_of_skipReason hr] at h
    cases h
  | none =>
    unfold negotiate at h
    rw [hr, Selector.consult_selector] at h
    cases hs : n.decision.select head r.accept with
    | none =>
      rw [hs] at h
      cases h
    | some coding =>
      rw [hs] at h
      obtain ⟨rfl, rfl⟩ := Treatment.encoded.inj h
      exact ⟨rfl, coding, rfl, rfl, rfl⟩

end Negotiator

namespace Connection

variable {c : Connection (Selector ε) (StreamCompressor ε)}

theorem decision_write (c : Connection (Selector ε) (StreamCompressor ε)) (m : Message) :
    (c.write m).after.negotiator.decision = c.negotiator.decision := by
  have hw := c.wrote m
  generalize c.write m = s at hw
  cases hw with
  | terminated | overlaps | unmatched | headless | chunk | chunkFailed => rfl
  | head | aggregate | aggregateFailed => exact Negotiator.decision_negotiate

theorem decision_perform (c : Connection (Selector ε) (StreamCompressor ε)) (op : Operation) :
    (c.perform op).after.negotiator.decision = c.negotiator.decision := by
  cases op with
  | record r | read | drain => rfl
  | write m => exact decision_write c m
  | deactivate =>
    by_cases hl : c.lifecycle = .inactive
    · rw [perform, deactivate_of_inactive hl]
      rfl
    · rw [perform, Step.map, deactivate_of_not_inactive hl]
      rfl

/-- A stage keeps its selector. -/
theorem decision_run (c : Connection (Selector ε) (StreamCompressor ε)) (ops : List Operation) :
    (c.run ops).last.negotiator.decision = c.negotiator.decision := by
  induction ops generalizing c with
  | nil => rfl
  | cons op ops ih =>
    rw [← decision_perform c op]
    exact ih (c.perform op).after

end Connection

end ContentCoding
