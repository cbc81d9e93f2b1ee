import ContentCoding.Connection.Run
import Mathlib.Tactic.Set

/-!
# What a write can do

A write has nine outcomes, and each says all that it does: the answer, the stage after it
and the events. What holds of whole runs is derived from them, so that nothing else looks
into `write`.

* `wrote`: every write has one of the outcomes (`Wrote`).
* `inOrder_run`: the streamed response that a stage is in the middle of is neither
  finished nor closed, after any run.
-/

namespace ContentCoding

/-- The head and the body of the response that a message starts. -/
def Message.start? : Message → Option (Head × BodyKind)
  | .head h => some (h, .streamed)
  | .aggregate a => some (a.head, .aggregate a.payload.length)
  | .chunk _ => none

/-- The response that an operation starts. -/
def Operation.start? : Operation → Option (Head × BodyKind)
  | .write m => m.start?
  | _ => none

/-- The violation of a response that no request waits for. -/
def Violation.unmatched (head : Head) : Violation :=
  if head.status.isInterim then .interimUnmatched else .responseUnmatched

/-- What still waits once a response with this head was matched. -/
def Backlog.matched (b : Backlog) (head : Head) : Backlog :=
  if head.status.isInterim then b else ⟨b.waiting.tail⟩

namespace Cycle

variable {σ : Type} [Compressor σ] {cy : Cycle σ} {k : Chunk} {input : Octets}

omit [Compressor σ] in
/-- What passes as it is has no label. -/
theorem label?_of_isSkip (h : cy.isSkip = true) : cy.label? = none := by
  unfold isSkip at h
  unfold label?
  split at h
  · rfl
  · cases h

omit [Compressor σ] in
/-- What passes as it is has the head that was written. -/
theorem announce_of_isSkip (h : cy.isSkip = true) (framing : Framing) (head : Head) :
    cy.announce framing head = head := by
  rw [announce, fields, label?_of_isSkip h]

omit [Compressor σ] in
/-- The head of a coded response announces its coding and no other. -/
theorem coding_announce {label : Octets} {framing : Framing} {head : Head}
    (h : cy.label? = some label) :
    (cy.announce framing head).fields.values .contentEncoding = [label] := by
  rw [announce, fields, h]
  exact Framing.values_announce_label

omit [Compressor σ] in
theorem coding_announceWhole {label : Octets} {head : Head} {size : Nat}
    (h : cy.label? = some label) :
    (cy.announceWhole head size).fields.values .contentEncoding = [label] := by
  simp only [announceWhole]
  split
  · rw [Fields.setLength, Fields.values_insert, if_neg (by decide)]
    exact coding_announce h
  · exact coding_announce h

/-- The last piece finishes its cycle, unless it could not be taken. -/
theorem compressLast_cases (cy : Cycle σ) (input : Octets) :
    (∃ f, (cy.compress input).answer = .error f ∧
        cy.compressLast input = ⟨.error f, (cy.compress input).after, (cy.compress input).events⟩) ∨
      ∃ out, (cy.compress input).answer = .ok out ∧
        let rest := (cy.compress input).after.finish
        cy.compressLast input =
          ⟨rest.answer.map (out ++ ·), rest.after, (cy.compress input).events ++ rest.events⟩ := by
  cases h : (cy.compress input).answer with
  | error f => exact .inl ⟨f, rfl, by simp [compressLast, Step.andThen, h]⟩
  | ok out => exact .inr ⟨out, rfl, by simp [compressLast, Step.andThen, h, Step.map]⟩

theorem finished_compressLast {out : Octets} (h : (cy.compressLast input).answer = .ok out) :
    (cy.compressLast input).after.finished = true := by
  rcases compressLast_cases cy input with ⟨f, -, hl⟩ | ⟨out, -, hl⟩
  · rw [hl] at h
    cases h
  · rw [hl]
    exact finished_finish

/-- The last chunk of a body finishes its cycle. -/
theorem finished_send {ms : List Message} (hs : (cy.send k).answer = .ok ms)
    (hk : k.last = true) : (cy.send k).after.finished = true := by
  cases hp : cy.isSkip with
  | true => simp [send_of_isSkip hp, Step.pure, hk]
  | false =>
    simp only [send, hp, hk, Bool.false_eq_true, ↓reduceIte, Step.map] at hs ⊢
    obtain ⟨out, ha, -⟩ := ok_of_map hs
    exact finished_compressLast ha

/-- A piece that is not the last one finishes nothing. -/
theorem finished_send_piece (hk : k.last = false) :
    (cy.send k).after.finished = cy.finished := by
  unfold send
  rw [hk]
  split
  · exact Bool.or_false _
  · rw [if_neg Bool.false_ne_true, Step.map, compress]
    split <;> rfl

/-- A piece that does not finish its cycle leaves the compressor open. -/
theorem not_isClosed_send {ms : List Message} (hs : (cy.send k).answer = .ok ms)
    (hc : cy.isClosed = false) (hf : (cy.send k).after.finished = false) :
    (cy.send k).after.isClosed = false := by
  cases hl : k.last with
  | true =>
    rw [finished_send hs hl] at hf
    cases hf
  | false =>
    obtain ⟨treatment, rep, fin⟩ := cy
    cases treatment with
    | skipped r => rfl
    | encoded label l =>
      simp only [send, isSkip, hl, compress, Lease.compress, Step.within, Step.map]
      exact hc

end Cycle

namespace Connection

variable {δ σ : Type} [Decision δ σ] [Compressor σ] {c : Connection δ σ}

/-- **A response that a request waits for**: how it is negotiated. -/
def negotiated (c : Connection δ σ) (r : Request) (head : Head) (body : BodyKind) :
    Negotiated δ σ :=
  c.negotiator.negotiate head r body

/-- The stage once a response was matched and negotiated. -/
def started (c : Connection δ σ) (r : Request) (head : Head) (body : BodyKind) :
    Connection δ σ :=
  { c with backlog := c.backlog.matched head, negotiator := (c.negotiated r head body).after }

section start

variable {r : Request} {rest : List Request} {cy : Cycle σ}

omit [Compressor σ] in
theorem start_of_open (hc : c.cycle = some cy) (head : Head) (body : BodyKind) :
    c.start head body = .fail (.protocol .responseOverlaps) c := by
  simp [start, hc]

omit [Compressor σ] in
theorem start_of_empty (hc : c.cycle = none) (hb : c.backlog.waiting = []) (head : Head)
    (body : BodyKind) :
    c.start head body = .fail (.protocol (.unmatched head)) c := by
  by_cases hi : head.status.isInterim <;>
    simp [start, hc, hi, Backlog.peek, Backlog.next, hb, Violation.unmatched]

omit [Compressor σ] in
theorem start_of_waiting (hc : c.cycle = none) (hb : c.backlog.waiting = r :: rest) (head : Head)
    (body : BodyKind) :
    c.start head body =
      ⟨.ok (c.negotiated r head body).cycle, c.started r head body,
        (c.negotiated r head body).events⟩ := by
  by_cases hi : head.status.isInterim
  · simp [start, hc, hi, Backlog.peek, hb, negotiate, negotiated, started, Backlog.matched]
  · simp [start, hc, hi, Backlog.next, hb, negotiate, negotiated, started, Backlog.matched]

end start

/-- The stage after a piece of the streamed response has left. -/
def sent (c : Connection δ σ) (cy : Cycle σ) (ms : List Message) : Connection δ σ :=
  { c with outbound := c.outbound ++ ms, cycle := if cy.finished then none else some cy }

/-- **The outcomes of a write.** -/
inductive Wrote (c : Connection δ σ) : Message → Step (Connection δ σ) Unit → Prop
  /-- After a fault or the end of the connection nothing is written. -/
  | terminated {m : Message} : c.lifecycle ≠ .active → Wrote c m (.fail .terminated c)
  /-- A response starts in the middle of another one. -/
  | overlaps {m : Message} {start : Head × BodyKind} {cy : Cycle σ} :
      c.lifecycle = .active → m.start? = some start → c.cycle = some cy →
      Wrote c m ⟨.error (.protocol .responseOverlaps), c.abandon, cy.release⟩
  /-- A response starts that no request waits for. -/
  | unmatched {m : Message} {head : Head} {body : BodyKind} :
      c.lifecycle = .active → m.start? = some (head, body) → c.cycle = none →
      c.backlog.waiting = [] →
      Wrote c m ⟨.error (.protocol (.unmatched head)), c.abandon, []⟩
  /-- A chunk comes without a head. -/
  | headless {k : Chunk} : c.lifecycle = .active → c.cycle = none →
      Wrote c (.chunk k) ⟨.error (.protocol .chunkWithoutHead), c.abandon, []⟩
  /-- A streamed response starts. -/
  | head {h : Head} {r : Request} {rest : List Request} {n : Negotiated δ σ} :
      c.lifecycle = .active → c.cycle = none → c.backlog.waiting = r :: rest →
      n = c.negotiated r h .streamed →
      Wrote c (.head h)
        ⟨.ok (), { c.started r h .streamed with
          outbound := c.outbound ++ [.head (n.cycle.announce .chunked h)]
          cycle := some n.cycle }, n.events⟩
  /-- A piece of the streamed response leaves. -/
  | chunk {k : Chunk} {cy : Cycle σ} {ms : List Message} :
      c.lifecycle = .active → c.cycle = some cy → (cy.send k).answer = .ok ms →
      Wrote c (.chunk k)
        ⟨.ok (), c.sent (cy.send k).after ms,
          (cy.send k).events ++
            if (cy.send k).after.finished then (cy.send k).after.release else []⟩
  /-- A piece of the streamed response cannot be coded. -/
  | chunkFailed {k : Chunk} {cy : Cycle σ} {f : Fault} :
      c.lifecycle = .active → c.cycle = some cy → (cy.send k).answer = .error f →
      Wrote c (.chunk k)
        ⟨.error f, c.abandon, (cy.send k).events ++ (cy.send k).after.release⟩
  /-- A whole response leaves. -/
  | aggregate {a : Aggregate} {r : Request} {rest : List Request} {n : Negotiated δ σ}
      {ms : List Message} :
      c.lifecycle = .active → c.cycle = none → c.backlog.waiting = r :: rest →
      n = c.negotiated r a.head (.aggregate a.payload.length) →
      (n.cycle.sendWhole a).answer = .ok ms →
      Wrote c (.aggregate a)
        ⟨.ok (), { c.started r a.head (.aggregate a.payload.length) with
          outbound := c.outbound ++ ms },
          n.events ++ ((n.cycle.sendWhole a).events ++ (n.cycle.sendWhole a).after.release)⟩
  /-- A whole response cannot be coded. -/
  | aggregateFailed {a : Aggregate} {r : Request} {rest : List Request} {n : Negotiated δ σ}
      {f : Fault} :
      c.lifecycle = .active → c.cycle = none → c.backlog.waiting = r :: rest →
      n = c.negotiated r a.head (.aggregate a.payload.length) →
      (n.cycle.sendWhole a).answer = .error f →
      Wrote c (.aggregate a)
        ⟨.error f, (c.started r a.head (.aggregate a.payload.length)).abandon,
          n.events ++ ((n.cycle.sendWhole a).events ++ (n.cycle.sendWhole a).after.release)⟩

section write

variable {m : Message} {f : Fault}

theorem write_of_ok (ha : c.lifecycle = .active) (hd : (c.dispatch m).answer = .ok ()) :
    c.write m = c.dispatch m := by
  simp [write, ha, hd]

theorem write_of_fault (ha : c.lifecycle = .active) (hd : (c.dispatch m).answer = .error f) :
    c.write m = ⟨.error f, (c.dispatch m).after.abandon,
      (c.dispatch m).events ++ (c.dispatch m).after.releaseCycle⟩ := by
  simp [write, ha, hd]

/-- A response that does not start leaves only the fault. -/
theorem write_of_unstarted {head : Head} {body : BodyKind} (ha : c.lifecycle = .active)
    (hm : m.start? = some (head, body)) (hs : c.start head body = .fail f c) :
    c.write m = ⟨.error f, c.abandon, c.releaseCycle⟩ := by
  have hd : c.dispatch m = .fail f c := by
    cases m with
    | chunk k => cases hm
    | head h =>
      obtain ⟨rfl, rfl⟩ := Prod.mk.inj (Option.some.inj hm)
      simp [dispatch, writeHead, hs, Step.andThen, Step.fail]
    | aggregate a =>
      obtain ⟨rfl, rfl⟩ := Prod.mk.inj (Option.some.inj hm)
      simp [dispatch, writeAggregate, hs, Step.andThen, Step.fail]
  rw [write_of_fault ha (by rw [hd]; rfl), hd]
  rfl

/-- A response starts where no other one is open and a request waits. -/
theorem wrote_of_start {head : Head} {body : BodyKind} (ha : c.lifecycle = .active)
    (hm : m.start? = some (head, body))
    (hw : c.cycle = none → ∀ r rest, c.backlog.waiting = r :: rest → Wrote c m (c.write m)) :
    Wrote c m (c.write m) := by
  cases hc : c.cycle with
  | some cy =>
    have h := write_of_unstarted ha hm (start_of_open hc head body)
    rw [releaseCycle, hc] at h
    exact h ▸ .overlaps ha hm hc
  | none =>
    cases hb : c.backlog.waiting with
    | cons r rest => exact hw hc r rest hb
    | nil =>
      have h := write_of_unstarted ha hm (start_of_empty hc hb head body)
      rw [releaseCycle, hc] at h
      exact h ▸ .unmatched ha hm hc hb

theorem wrote_head (ha : c.lifecycle = .active) (h : Head) :
    Wrote c (.head h) (c.write (.head h)) := by
  refine wrote_of_start ha rfl fun hc r rest hb => ?_
  have hd : (c.dispatch (.head h)).answer = .ok () := by
    simp [dispatch, writeHead, start_of_waiting hc hb, Step.andThen, Step.pure]
  rw [write_of_ok ha hd]
  simp only [dispatch, writeHead, start_of_waiting hc hb, Step.andThen, Step.pure, List.append_nil]
  exact .head ha hc hb rfl

theorem wrote_chunk (ha : c.lifecycle = .active) (k : Chunk) :
    Wrote c (.chunk k) (c.write (.chunk k)) := by
  cases hc : c.cycle with
  | none =>
    have hd : c.dispatch (.chunk k) = .fail (.protocol .chunkWithoutHead) c := by
      simp [dispatch, writeChunk, hc]
    have h := write_of_fault ha (congrArg Step.answer hd)
    rw [hd, Step.fail, releaseCycle, hc] at h
    exact h ▸ .headless ha hc
  | some cy =>
    cases hs : (cy.send k).answer with
    | error f =>
      -- the cycle that failed is still held here, and it is `write` that gives it up
      have hd : c.dispatch (.chunk k) =
          ⟨.error f, { c with cycle := some (cy.send k).after }, (cy.send k).events⟩ := by
        simp [dispatch, writeChunk, hc, hs]
      have h := write_of_fault ha (congrArg Step.answer hd)
      rw [hd] at h
      exact h ▸ .chunkFailed ha hc hs
    | ok ms =>
      have hd : (c.dispatch (.chunk k)).answer = .ok () := by
        simp [dispatch, writeChunk, hc, hs]
      rw [write_of_ok ha hd]
      simp only [dispatch, writeChunk, hc, hs]
      exact .chunk ha hc hs

theorem wrote_aggregate (ha : c.lifecycle = .active) (a : Aggregate) :
    Wrote c (.aggregate a) (c.write (.aggregate a)) := by
  refine wrote_of_start ha rfl fun hc r rest hb => ?_
  have hd := start_of_waiting hc hb a.head (.aggregate a.payload.length)
  set n := c.negotiated r a.head (.aggregate a.payload.length) with hn
  cases hs : (n.cycle.sendWhole a).answer with
  | error f =>
    have hf : (c.dispatch (.aggregate a)).answer = .error f := by
      simp [dispatch, writeAggregate, hd, Step.andThen, hs]
    rw [write_of_fault ha hf]
    simp only [dispatch, writeAggregate, hd, Step.andThen, hs, releaseCycle, started, hc,
      List.append_nil]
    exact .aggregateFailed ha hc hb hn hs
  | ok ms =>
    have hk : (c.dispatch (.aggregate a)).answer = .ok () := by
      simp [dispatch, writeAggregate, hd, Step.andThen, hs]
    rw [write_of_ok ha hk]
    simp only [dispatch, writeAggregate, hd, Step.andThen, hs]
    exact .aggregate ha hc hb hn hs

/-- **Every write has one of the outcomes.** -/
theorem wrote (c : Connection δ σ) (m : Message) : Wrote c m (c.write m) := by
  by_cases ha : c.lifecycle = .active
  · cases m with
    | head h => exact wrote_head ha h
    | chunk k => exact wrote_chunk ha k
    | aggregate a => exact wrote_aggregate ha a
  · rw [write_of_not_active ha]
    exact .terminated ha

/-- A response that a request waits for starts, and its cycle is open then. -/
theorem write_of_waiting {r : Request} {rest : List Request} (ha : c.lifecycle = .active)
    (hc : c.cycle = none) (hb : c.backlog.waiting = r :: rest) (head : Head) :
    c.write (.head head) =
      let n := c.negotiated r head .streamed
      ⟨.ok (), { c.started r head .streamed with
        outbound := c.outbound ++ [.head (n.cycle.announce .chunked head)]
        cycle := some n.cycle }, n.events⟩ := by
  have hw := c.wrote (.head head)
  generalize c.write (.head head) = w at hw ⊢
  cases hw with
  | terminated hn => exact absurd ha hn
  | overlaps _ _ hsome => cases hc.symm.trans hsome
  | unmatched _ _ _ hnil => cases hb.symm.trans hnil
  | head _ _ hb' hn =>
    obtain ⟨rfl, rfl⟩ := List.cons.inj (hb.symm.trans hb')
    rw [hn]

/-- A whole response that a request waits for leaves, where its cycle can send it. -/
theorem write_of_whole {r : Request} {rest : List Request} {a : Aggregate} {ms : List Message}
    (ha : c.lifecycle = .active) (hc : c.cycle = none) (hb : c.backlog.waiting = r :: rest)
    (hs : ((c.negotiated r a.head (.aggregate a.payload.length)).cycle.sendWhole a).answer =
      .ok ms) :
    c.write (.aggregate a) =
      let n := c.negotiated r a.head (.aggregate a.payload.length)
      ⟨.ok (), { c.started r a.head (.aggregate a.payload.length) with
        outbound := c.outbound ++ ms },
        n.events ++ ((n.cycle.sendWhole a).events ++ (n.cycle.sendWhole a).after.release)⟩ := by
  have hw := c.wrote (.aggregate a)
  generalize c.write (.aggregate a) = w at hw ⊢
  cases hw with
  | terminated hn => exact absurd ha hn
  | overlaps _ _ hsome => cases hc.symm.trans hsome
  | unmatched _ _ _ hnil => cases hb.symm.trans hnil
  | aggregate _ _ hb' hn hs' =>
    obtain ⟨rfl, rfl⟩ := List.cons.inj (hb.symm.trans hb')
    subst hn
    rw [Except.ok.inj (hs'.symm.trans hs)]
  | aggregateFailed _ _ hb' hn hs' =>
    obtain ⟨rfl, rfl⟩ := List.cons.inj (hb.symm.trans hb')
    subst hn
    cases hs'.symm.trans hs

/-- A whole response that a request waits for is answered as its cycle answers it, and does what its
negotiation and its cycle do. -/
theorem answer_write_of_whole {r : Request} {rest : List Request} {a : Aggregate}
    (ha : c.lifecycle = .active) (hc : c.cycle = none) (hb : c.backlog.waiting = r :: rest) :
    let n := c.negotiated r a.head (.aggregate a.payload.length)
    let sent := n.cycle.sendWhole a
    (c.write (.aggregate a)).answer = sent.answer.map (fun _ => ()) ∧
      (c.write (.aggregate a)).events = n.events ++ (sent.events ++ sent.after.release) := by
  have hw := c.wrote (.aggregate a)
  generalize c.write (.aggregate a) = w at hw ⊢
  cases hw with
  | terminated hn => exact absurd ha hn
  | overlaps _ _ hsome => cases hc.symm.trans hsome
  | unmatched _ _ _ hnil => cases hb.symm.trans hnil
  | aggregate _ _ hb' hn hs | aggregateFailed _ _ hb' hn hs =>
    obtain ⟨rfl, rfl⟩ := List.cons.inj (hb.symm.trans hb')
    subst hn
    exact ⟨by rw [hs]; rfl, rfl⟩

section chunk

variable {cy : Cycle σ} {k : Chunk} {ms : List Message}

/-- A chunk that its cycle can send leaves. -/
theorem write_of_sent (ha : c.lifecycle = .active) (hc : c.cycle = some cy)
    (hs : (cy.send k).answer = .ok ms) :
    c.write (.chunk k) =
      ⟨.ok (), c.sent (cy.send k).after ms, (cy.send k).events ++
        if (cy.send k).after.finished then (cy.send k).after.release else []⟩ := by
  have hw := c.wrote (.chunk k)
  generalize c.write (.chunk k) = s at hw ⊢
  cases hw with
  | terminated hn => exact absurd ha hn
  | overlaps _ hm | unmatched _ hm => cases hm
  | headless _ hn => cases hn.symm.trans hc
  | chunk _ hcy hms =>
    obtain rfl := Option.some.inj (hcy.symm.trans hc)
    rw [Except.ok.inj (hms.symm.trans hs)]
  | chunkFailed _ hcy hf =>
    obtain rfl := Option.some.inj (hcy.symm.trans hc)
    cases hf.symm.trans hs

/-- A chunk that its cycle cannot send ends the stage. -/
theorem write_of_unsent (ha : c.lifecycle = .active) (hc : c.cycle = some cy)
    (hs : (cy.send k).answer = .error f) :
    c.write (.chunk k) =
      ⟨.error f, c.abandon, (cy.send k).events ++ (cy.send k).after.release⟩ := by
  have hw := c.wrote (.chunk k)
  generalize c.write (.chunk k) = s at hw ⊢
  cases hw with
  | terminated hn => exact absurd ha hn
  | overlaps _ hm | unmatched _ hm => cases hm
  | headless _ hn => cases hn.symm.trans hc
  | chunk _ hcy hms =>
    obtain rfl := Option.some.inj (hcy.symm.trans hc)
    cases hms.symm.trans hs
  | chunkFailed _ hcy hf =>
    obtain rfl := Option.some.inj (hcy.symm.trans hc)
    rw [Except.error.inj (hf.symm.trans hs)]

/-- A chunk is answered as its cycle answers it. -/
theorem answer_write_of_chunk (ha : c.lifecycle = .active) (hc : c.cycle = some cy) :
    (c.write (.chunk k)).answer = (cy.send k).answer.map fun _ => () := by
  cases hs : (cy.send k).answer with
  | ok ms => rw [write_of_sent ha hc hs]; rfl
  | error f => rw [write_of_unsent ha hc hs]; rfl

end chunk

end write

/-- **In order**: a stage is in the middle of a streamed response only while it is active, and
that response is neither finished nor closed. -/
structure InOrder (c : Connection δ σ) : Prop where
  active : c.cycle ≠ none → c.lifecycle = .active
  unfinished : ∀ cy, c.cycle = some cy → cy.finished = false
  unclosed : ∀ cy, c.cycle = some cy → cy.isClosed = false

omit [Decision δ σ] [Compressor σ] in
theorem inOrder_of_none (hc : c.cycle = none) : c.InOrder :=
  ⟨fun h => absurd hc h, by simp [hc], by simp [hc]⟩

omit [Decision δ σ] [Compressor σ] in
theorem inOrder_new (d : δ) : (new d : Connection δ σ).InOrder := inOrder_of_none rfl

/-- A write keeps the stage in order. -/
theorem inOrder_write (hc : c.InOrder) (m : Message) : (c.write m).after.InOrder := by
  have hw := c.wrote m
  generalize c.write m = s at hw
  cases hw with
  | terminated => exact hc
  | overlaps | unmatched | headless | chunkFailed | aggregateFailed => exact inOrder_of_none rfl
  | aggregate _ hn => exact inOrder_of_none hn
  | head ha _ _ hn =>
    refine ⟨fun _ => ha, ?_, ?_⟩ <;> intro cy hcy
    · rw [← Option.some.inj hcy, hn]
      exact Negotiator.not_finished_negotiate
    · rw [← Option.some.inj hcy, hn]
      exact Negotiator.not_isClosed_negotiate
  | chunk ha hcy hs =>
    refine ⟨fun _ => ha, ?_, ?_⟩ <;> intro cy' h <;> simp only [sent] at h
    · split at h
      · cases h
      · rename_i hf
        rw [← Option.some.inj h]
        simpa using hf
    · split at h
      · cases h
      · rename_i hf
        rw [← Option.some.inj h]
        exact Cycle.not_isClosed_send hs (hc.unclosed _ hcy) (by simpa using hf)

/-- Every operation keeps the stage in order. -/
theorem inOrder_perform (hc : c.InOrder) (op : Operation) : (c.perform op).after.InOrder := by
  cases op with
  | record r => exact ⟨hc.active, hc.unfinished, hc.unclosed⟩
  | write m => exact inOrder_write hc m
  | read => exact ⟨hc.active, hc.unfinished, hc.unclosed⟩
  | drain => exact ⟨hc.active, hc.unfinished, hc.unclosed⟩
  | deactivate =>
    by_cases hl : c.lifecycle = .inactive
    · simpa [perform, deactivate_of_inactive hl, Step.pure, Step.map] using hc
    · rw [perform, deactivate_of_not_inactive hl]
      exact inOrder_of_none rfl

/-- **A stage stays in order**, whatever is done with it. -/
theorem inOrder_run (hc : c.InOrder) (ops : List Operation) : (c.run ops).last.InOrder := by
  induction ops generalizing c with
  | nil => exact hc
  | cons op ops ih => exact ih (inOrder_perform hc op)

end Connection

end ContentCoding
