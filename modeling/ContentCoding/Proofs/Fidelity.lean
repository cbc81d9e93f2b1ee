import ContentCoding.Proofs.StoredStreams
import ContentCoding.Proofs.Traffic

/-!
# Coded bodies read back as they were written

What is emitted in a run is told apart into deliveries, each beside what was written for it. One
that is coded has one transcript of the engine that its label names, so that its data are a stream
of that coding, which reads back as the body that was written.

* `Delivery.Sound`: a delivery that passed, or one that is coded and reads back.
* `under_send`: a chunk keeps the delivery that it belongs to sound.
* `journal_run`: every run is a list of sound deliveries.
* `faithful_of_run`: **what is emitted in a run is faithful to what was written in it.**
-/

namespace ContentCoding

open Engine

/-- One response: a message that starts it, and chunks behind. -/
def IsResponse (ms : List Message) : Prop :=
  ∃ first rest, ms = first :: rest ∧ first.start? ≠ none ∧ ∀ m ∈ rest, m.start? = none

/-- **A delivery**: what was written for a response, and what is sent for it. -/
structure Delivery where
  written : List Message
  sent : List Message

namespace Delivery

/-- The front of a coded delivery: a head that announces the coding, where none was announced in the
head that was written, and chunks of data, none of which is empty. -/
def Opens (r : Delivery) (coding : Coding) (data : List Octets) (rest : List Message) : Prop :=
  ∃ first head sent, r.written.head? = some first ∧ first.head? = some head ∧
    head.fields.has .contentEncoding = false ∧
    sent.fields.values .contentEncoding = [Octets.ofString coding.label] ∧ [] ∉ data ∧
    r.sent = .head sent :: (data.map fun out => .chunk { payload := out }) ++ rest

/-- **A coded delivery.** Once its last chunk is there, the data before it are one stream of the
coding that its head announces, and read as the body that was written. -/
def Coded (reads : Coding → Octets → Octets → Prop) (r : Delivery) : Prop :=
  ∃ coding data rest, r.Opens coding data rest ∧
    (rest = [] ∨ ∃ trailers, rest = [Message.ending trailers] ∧
      reads coding data.flatten (payload r.written))

/-- **A sound delivery** is one response for another one, and is that one itself or codes it. -/
structure Sound (reads : Coding → Octets → Octets → Prop) (r : Delivery) : Prop where
  written : IsResponse r.written
  sent : IsResponse r.sent
  faithful : r.sent = r.written ∨ r.Coded reads

end Delivery

theorem isResponse_append {ms more : List Message} (h : IsResponse ms)
    (hm : ∀ m ∈ more, m.start? = none) : IsResponse (ms ++ more) := by
  obtain ⟨first, rest, rfl, hf, hr⟩ := h
  refine ⟨first, rest ++ more, rfl, hf, fun m hmem => ?_⟩
  rcases List.mem_append.1 hmem with hmem | hmem
  · exact hr m hmem
  · exact hm m hmem

/-- The data of a chunk, or none where there are none. -/
def dataOf (out : Octets) : List Octets := if out = [] then [] else [out]

theorem flatten_dataOf (out : Octets) : (dataOf out).flatten = out := by
  by_cases h : out = [] <;> simp [dataOf, h]

theorem nil_notMem_dataOf (out : Octets) : [] ∉ dataOf out := by
  by_cases h : out = []
  · simp [dataOf, h]
  · simp [dataOf, h, Ne.symm h]

theorem data_eq_map (out : Octets) :
    Message.data out = (dataOf out).map fun out => .chunk { payload := out } := by
  by_cases h : out = [] <;> simp [dataOf, Message.data, h]

/-- A coded body starts no response. -/
theorem start?_data {out : Octets} {m : Message} (hm : m ∈ Message.data out) :
    m.start? = none := by
  rw [(Message.mem_data.1 hm).2]
  rfl

theorem start?_coded {out : Octets} {trailers : Option Fields} {m : Message}
    (hm : m ∈ Message.data out ++ [Message.ending trailers]) : m.start? = none := by
  rcases List.mem_append.1 hm with hm | hm
  · exact start?_data hm
  · rw [List.mem_singleton.1 hm]
    rfl

namespace Delivery

variable {ε : Type} [Engine ε] {s : Selector ε} {reads : Coding → Octets → Octets → Prop}
  {r : Delivery} {cy : Cycle (StreamCompressor ε)} {coding : Coding} {data : List Octets}
  {rest ms : List Message} {n : Negotiator (Selector ε)}

/-- The delivery with one more chunk that was written, and what left for it. -/
def add (r : Delivery) (k : Chunk) (ms : List Message) : Delivery :=
  ⟨r.written ++ [.chunk k], r.sent ++ ms⟩

/-- **A delivery under way**, with the cycle of its response. Where it is coded the engine at work
has taken the body that was written so far, and has given out the data that were sent. -/
structure Under (s : Selector ε) (cy : Cycle (StreamCompressor ε)) (r : Delivery) : Prop where
  written : IsResponse r.written
  sent : IsResponse r.sent
  going : cy.isSkip = true ∧ r.sent = r.written ∨
    ∃ coding data pieces, r.Opens coding data [] ∧ pieces.flatten = payload r.written ∧
      cy.Running (s.engine coding) pieces data.flatten

/-- More chunks behind the data of an open delivery. -/
theorem opens_add (h : r.Opens coding data []) (k : Chunk) (out : Octets) (rest : List Message) :
    (r.add k (Message.data out ++ rest)).Opens coding (data ++ dataOf out) rest := by
  obtain ⟨first, head, sent, hf, hh, hno, hval, hne, hsent⟩ := h
  refine ⟨first, head, sent, ?_, hh, hno, hval, ?_, ?_⟩
  · rw [add, List.head?_append, hf]
    rfl
  · rw [List.mem_append, not_or]
    exact ⟨hne, nil_notMem_dataOf out⟩
  · rw [add, hsent, List.append_nil, List.map_append, ← data_eq_map, List.cons_append,
      List.cons_append, List.append_assoc]

theorem sound_of_under (h : r.Under s cy) : r.Sound reads := by
  refine ⟨h.written, h.sent, ?_⟩
  rcases h.going with ⟨-, hp⟩ | ⟨coding, data, -, ho, -⟩
  · exact .inl hp
  · exact .inr ⟨coding, data, [], ho, .inl rfl⟩

/-- What a chunk leaves is part of the same response. -/
theorem isResponse_add (hw : IsResponse r.written) (hs : IsResponse r.sent) (k : Chunk)
    (hms : ∀ m ∈ ms, m.start? = none) :
    IsResponse (r.add k ms).written ∧ IsResponse (r.add k ms).sent := by
  refine ⟨isResponse_append hw ?_, isResponse_append hs hms⟩
  intro m hm
  rw [List.mem_singleton.1 hm]
  rfl

/-- **A chunk goes on with the delivery that is under way**, or ends it. -/
theorem under_send (hf : Faithful s.engine reads) (h : r.Under s cy) {k : Chunk}
    (hs : (cy.send k).answer = .ok ms) :
    ((cy.send k).after.finished = false → (r.add k ms).Under s (cy.send k).after) ∧
      (r.add k ms).Sound reads := by
  rcases h.going with ⟨hskip, hp⟩ | ⟨coding, data, pieces, ho, hpay, hrun⟩
  · -- what passes leaves as it was written
    rw [Cycle.send_of_isSkip hskip] at hs ⊢
    obtain rfl := Except.ok.inj hs
    have hms : ∀ m ∈ [Message.chunk k], m.start? = none := by
      intro m hm
      rw [List.mem_singleton.1 hm]
      rfl
    obtain ⟨hw, hsent⟩ := isResponse_add h.written h.sent k hms
    have hpass : (r.add k [.chunk k]).sent = (r.add k [.chunk k]).written := by
      rw [add, hp]
    exact ⟨fun _ => ⟨hw, hsent, .inl ⟨hskip, hpass⟩⟩, hw, hsent, .inl hpass⟩
  · have hpay' (ms : List Message) :
        payload (r.add k ms).written = payload r.written ++ k.payload := by
      rw [add, payload_append]
      exact congrArg (payload r.written ++ ·) (List.append_nil _)
    cases hk : k.last with
    | false =>
      -- a chunk that gives out nothing adds no data, but its piece is in the transcript
      obtain ⟨taken, out, -, hin, rfl, hrun⟩ := Cycle.running_send hrun hk hs
      obtain ⟨hw, hsent⟩ := isResponse_add h.written h.sent k fun m => start?_data
      have hadd := opens_add ho k out []
      rw [List.append_nil] at hadd
      have hgo : (r.add k (Message.data out)).Under s (cy.send k).after := by
        refine ⟨hw, hsent, .inr ⟨coding, data ++ dataOf out, pieces ++ taken, hadd, ?_, ?_⟩⟩
        · rw [List.flatten_append, hin, hpay, hpay']
        · rwa [List.flatten_append, flatten_dataOf]
      exact ⟨fun _ => hgo, sound_of_under hgo⟩
    | true =>
      obtain ⟨taken, out, e, hin, rfl, hend⟩ := Cycle.ended_send hrun hk hs
      obtain ⟨hw, hsent⟩ := isResponse_add h.written h.sent k fun m => start?_coded
      -- the transcript has ended, and what was assumed of the engine applies to it
      have hread := hf _ _ _ _ hend
      rw [List.flatten_append, hin, hpay] at hread
      refine ⟨fun hno => ?_, hw, hsent, .inr ⟨coding, data ++ dataOf out, _, opens_add ho k out _,
        .inr ⟨k.trailers, rfl, ?_⟩⟩⟩
      · rw [Cycle.finished_send hs hk] at hno
        cases hno
      · rwa [hpay', List.flatten_append, flatten_dataOf]

/-- No coding was announced in a head that may be coded. -/
theorem has_contentEncoding {head : Head} {q : Request} {body : BodyKind}
    (h : skipReason? head q body = none) : head.fields.has .contentEncoding = false :=
  skipReason?_eq_none_iff.1 h .alreadyEncoded

theorem isResponse_head (head : Head) : IsResponse [.head head] :=
  ⟨_, [], rfl, nofun, nofun⟩

/-- **The head of a streamed response** starts a delivery. -/
theorem under_head (hn : n.decision = s) (head : Head) (q : Request) :
    let cy := (n.negotiate head q .streamed).cycle
    Under s cy ⟨[.head head], [.head (cy.announce .chunked head)]⟩ := by
  intro cy
  refine ⟨isResponse_head _, isResponse_head _, ?_⟩
  rcases n.negotiate_cases head q .streamed with hskip | ⟨coding, hr, hl, hrun⟩
  · refine .inl ⟨hskip, ?_⟩
    rw [Cycle.announce_of_isSkip hskip]
  · rw [hn] at hrun
    refine .inr ⟨coding, [], [], ⟨_, head, _, rfl, rfl, has_contentEncoding hr, ?_, nofun, rfl⟩,
      rfl, hrun⟩
    exact Cycle.coding_announce hl

/-- **A whole response** is a delivery of its own. -/
theorem sound_whole (hf : Faithful s.engine reads) {a : Aggregate} {q : Request}
    (hn : n.decision = s)
    (hs : ((n.negotiate a.head q (.aggregate a.payload.length)).cycle.sendWhole a).answer =
      .ok ms) :
    Sound reads ⟨[.aggregate a], ms⟩ := by
  have hw : IsResponse [.aggregate a] := ⟨_, [], rfl, nofun, nofun⟩
  rcases n.negotiate_cases a.head q (.aggregate a.payload.length) with
    hskip | ⟨coding, hr, hl, hrun⟩
  · rw [Cycle.sendWhole_of_isSkip hskip] at hs
    obtain rfl := Except.ok.inj hs
    exact ⟨hw, hw, .inl rfl⟩
  · rw [hn] at hrun
    generalize (n.negotiate a.head q (.aggregate a.payload.length)).cycle = cy at hl hrun hs
    obtain ⟨taken, out, e, hin, rfl, hend⟩ := Cycle.ended_sendWhole hrun hs
    have hread := hf _ _ _ _ hend
    have hopen : Opens ⟨[.aggregate a], .head (cy.announceWhole a.head out.length) ::
        Message.data out ++ [Message.ending a.trailers]⟩
        coding (dataOf out) [Message.ending a.trailers] := by
      refine ⟨.aggregate a, a.head, cy.announceWhole a.head out.length, rfl, rfl,
        has_contentEncoding hr, Cycle.coding_announceWhole hl, nil_notMem_dataOf out, ?_⟩
      rw [data_eq_map]
    have hpay : payload [.aggregate a] = a.payload := List.append_nil _
    rw [hin, ← hpay, ← flatten_dataOf out] at hread
    exact ⟨hw, ⟨_, _, rfl, nofun, fun m => start?_coded⟩,
      .inr ⟨coding, _, _, hopen, .inr ⟨_, rfl, hread⟩⟩⟩

end Delivery

namespace Connection

variable {ε : Type} [Engine ε] {s : Selector ε} {reads : Coding → Octets → Octets → Prop}
  {c : Connection (Selector ε) (StreamCompressor ε)} {ws taken : List Message}

/-- **The journal of a stage**: the deliveries so far, what was written and what was taken by then.
While the stage is active nothing is lost, and the delivery of the open response is the last one. -/
structure Journal (s : Selector ε) (reads : Coding → Octets → Octets → Prop)
    (c : Connection (Selector ε) (StreamCompressor ε)) (ws taken : List Message)
    (deliveries : List Delivery) : Prop where
  sound : ∀ r ∈ deliveries, r.Sound reads
  written : ws = deliveries.flatMap Delivery.written
  emitted : taken ++ c.outbound <+: deliveries.flatMap Delivery.sent
  whole : c.lifecycle = .active → taken ++ c.outbound = deliveries.flatMap Delivery.sent
  going : ∀ cy, c.cycle = some cy → ∃ before r, deliveries = before ++ [r] ∧ r.Under s cy

variable {deliveries : List Delivery}

/-- A stage that has come to its end keeps its journal, though not all that was to be sent. -/
theorem journal_cut (h : c.Journal s reads ws taken deliveries)
    {c' : Connection (Selector ε) (StreamCompressor ε)} (hl : c'.lifecycle ≠ .active)
    (hc : c'.cycle = none) (ho : c'.outbound <+: c.outbound) :
    c'.Journal s reads ws taken deliveries := by
  refine ⟨h.sound, h.written, ?_, fun ha => absurd ha hl, fun cy hcy => ?_⟩
  · exact List.IsPrefix.trans ((List.prefix_append_right_inj taken).2 ho) h.emitted
  · rw [hc] at hcy
    cases hcy

/-- A delivery that starts comes last. -/
theorem journal_start (h : c.Journal s reads ws taken deliveries) (ha : c.lifecycle = .active)
    {r : Delivery} (hr : r.Sound reads) {c' : Connection (Selector ε) (StreamCompressor ε)}
    (ho : c'.outbound = c.outbound ++ r.sent) (hc : ∀ cy, c'.cycle = some cy → r.Under s cy) :
    c'.Journal s reads (ws ++ r.written) taken (deliveries ++ [r]) := by
  have hsent : taken ++ c'.outbound = (deliveries ++ [r]).flatMap Delivery.sent := by
    rw [ho, ← List.append_assoc, h.whole ha, List.flatMap_append, List.flatMap_singleton]
  refine ⟨fun x hx => ?_, ?_, ?_, fun _ => hsent, fun cy hcy => ⟨deliveries, r, rfl, hc cy hcy⟩⟩
  · rcases List.mem_append.1 hx with hx | hx
    · exact h.sound x hx
    · rwa [List.mem_singleton.1 hx]
  · rw [h.written, List.flatMap_append, List.flatMap_singleton]
  · exact hsent ▸ List.prefix_rfl

/-- A chunk goes to the last delivery. -/
theorem journal_chunk (hf : Faithful s.engine reads) (h : c.Journal s reads ws taken deliveries)
    (ha : c.lifecycle = .active) {cy : Cycle (StreamCompressor ε)} (hc : c.cycle = some cy)
    {k : Chunk} {ms : List Message} (hs : (cy.send k).answer = .ok ms) :
    ∃ deliveries', (c.sent (cy.send k).after ms).Journal s reads (ws ++ [.chunk k]) taken
      deliveries' := by
  -- the response that is open is the last delivery, and takes the chunk
  obtain ⟨before, r, rfl, hr⟩ := h.going cy hc
  obtain ⟨hgo, hsound⟩ := Delivery.under_send hf hr hs
  have hsent : taken ++ (c.outbound ++ ms) = (before ++ [r.add k ms]).flatMap Delivery.sent := by
    rw [← List.append_assoc, h.whole ha, List.flatMap_append, List.flatMap_append,
      List.flatMap_singleton, List.flatMap_singleton, List.append_assoc, Delivery.add]
  refine ⟨before ++ [r.add k ms], fun x hx => ?_, ?_, ?_, fun _ => hsent, fun cy' hcy' => ?_⟩
  · rcases List.mem_append.1 hx with hx | hx
    · exact h.sound x (List.mem_append_left _ hx)
    · rwa [List.mem_singleton.1 hx]
  · rw [h.written, List.flatMap_append, List.flatMap_append, List.flatMap_singleton,
      List.flatMap_singleton, List.append_assoc, Delivery.add]
  · exact hsent ▸ List.prefix_rfl
  · simp only [sent] at hcy'
    split at hcy'
    · cases hcy'
    · rename_i hfin
      obtain rfl := Option.some.inj hcy'
      exact ⟨before, _, rfl, hgo (by simpa using hfin)⟩

/-- A write that is accepted goes on with the journal; a fault ends it. -/
theorem journal_write (hf : Faithful s.engine reads) (hd : c.negotiator.decision = s)
    (h : c.Journal s reads ws taken deliveries) (m : Message) :
    ∃ deliveries', (c.write m).after.Journal s reads
      (ws ++ accepted [.write m] [(c.perform (.write m)).answer]) taken deliveries' := by
  have hw := c.wrote m
  rw [perform, Step.map]
  generalize c.write m = w at hw
  have hcut (c' : Connection (Selector ε) (StreamCompressor ε)) (hl : c'.lifecycle ≠ .active)
      (hc : c'.cycle = none) (ho : c'.outbound = []) :
      c'.Journal s reads (ws ++ []) taken deliveries := by
    rw [List.append_nil]
    exact journal_cut h hl hc (by rw [ho]; exact List.nil_prefix)
  cases hw with
  | terminated =>
    rw [← List.append_nil ws] at h
    exact ⟨deliveries, h⟩
  | overlaps | unmatched | headless | chunkFailed | aggregateFailed =>
    exact ⟨deliveries, hcut _ not_active_abandon rfl rfl⟩
  | @head hd' r rest n ha hc hb hn =>
    subst hn
    have hunder := Delivery.under_head hd hd' r
    refine ⟨_, journal_start h ha (Delivery.sound_of_under hunder) rfl fun cy hcy => ?_⟩
    rw [← Option.some.inj hcy]
    exact hunder
  | chunk ha hc hs => exact journal_chunk hf h ha hc hs
  | @aggregate a r rest n ms ha hc hb hn hs =>
    subst hn
    refine ⟨_, journal_start h ha (Delivery.sound_whole hf hd hs) rfl fun cy hcy => ?_⟩
    cases hc.symm.trans hcy

/-- Every operation goes on with the journal. -/
theorem journal_perform (hf : Faithful s.engine reads) (hd : c.negotiator.decision = s)
    (h : c.Journal s reads ws taken deliveries) (op : Operation) :
    ∃ deliveries', (c.perform op).after.Journal s reads
      (ws ++ accepted [op] [(c.perform op).answer])
      (taken ++ takenOf [(c.perform op).answer]) deliveries' := by
  cases haside : op.isAside with
  | true =>
    obtain ⟨hl, hc, ho, -, -⟩ := perform_aside (c := c) haside
    rw [accepted_of_message? (Operation.isAside_iff.1 haside).1, List.append_nil]
    refine ⟨deliveries, h.sound, h.written, ?_, fun ha => ?_, ?_⟩
    · rw [List.append_assoc, ho]
      exact h.emitted
    · rw [List.append_assoc, ho]
      exact h.whole (hl ▸ ha)
    · rw [hc]
      exact h.going
  | false =>
    cases op with
    | record r | read | drain => cases haside
    | write m =>
      obtain ⟨deliveries', h'⟩ := journal_write hf hd h m
      refine ⟨deliveries', ?_⟩
      rw [show takenOf [(c.perform (.write m)).answer] = [] from takenOf_map_nil _,
        List.append_nil]
      exact h'
    | deactivate =>
      refine ⟨deliveries, ?_⟩
      rw [accepted_of_message? rfl,
        show takenOf [(c.perform .deactivate).answer] = [] from takenOf_map_nil _,
        List.append_nil, List.append_nil, perform, Step.map]
      by_cases hl : c.lifecycle = .inactive
      · rw [deactivate_of_inactive hl]
        exact h
      · have hnone : c.deactivate.after.cycle = none := by
          rw [deactivate_of_not_inactive hl]
          rfl
        exact journal_cut h (not_active_deactivate c) hnone (outbound_deactivate c)

/-- **A run goes on with the journal**, operation by operation. -/
theorem journal_run (hf : Faithful s.engine reads) (hd : c.negotiator.decision = s)
    (h : c.Journal s reads ws taken deliveries) (ops : List Operation) :
    ∃ deliveries', (c.run ops).last.Journal s reads (ws ++ accepted ops (c.run ops).answers)
      (taken ++ takenOf (c.run ops).answers) deliveries' := by
  induction ops generalizing c ws taken deliveries with
  | nil =>
    rw [← List.append_nil ws, ← List.append_nil taken] at h
    exact ⟨deliveries, h⟩
  | cons op ops ih =>
    obtain ⟨deliveries', h'⟩ := journal_perform hf hd h op
    obtain ⟨deliveries'', h''⟩ := ih ((decision_perform c op).trans hd) h'
    refine ⟨deliveries'', ?_⟩
    rw [List.append_assoc, ← accepted_cons, List.append_assoc, ← takenOf_cons] at h''
    exact h''

theorem journal_new (s : Selector ε) :
    (new s : Connection (Selector ε) (StreamCompressor ε)).Journal s reads [] [] [] :=
  ⟨nofun, rfl, List.prefix_rfl, fun _ => rfl, nofun⟩

/-- **What is emitted in a run is faithful to what was written in it.** The messages that were
accepted are the responses of some deliveries in order, and those emitted are the front of what is
sent for them, all of it while the stage is active. Each delivery is the response as it was written,
or is coded: its head announces one coding, and once its last chunk is there the data before that
are one stream of this coding, which reads as the body that was written. -/
theorem faithful_of_run (s : Selector ε) (hf : Faithful s.engine reads) (ops : List Operation) :
    let h := (new s : Connection (Selector ε) (StreamCompressor ε)).run ops
    ∃ deliveries : List Delivery,
      accepted ops h.answers = deliveries.flatMap Delivery.written ∧
      h.taken ++ h.last.outbound <+: deliveries.flatMap Delivery.sent ∧
      (h.last.lifecycle = .active →
        h.taken ++ h.last.outbound = deliveries.flatMap Delivery.sent) ∧
      ∀ r ∈ deliveries, r.Sound reads := by
  intro h
  obtain ⟨deliveries, hj⟩ := journal_run (c := new s) hf rfl (journal_new s) ops
  exact ⟨deliveries, hj.written, hj.emitted, hj.whole, hj.sound⟩

section stored

open Stored

/-- Two responses, a streamed one and a whole one, that are written and taken in turns. -/
def mixed : List Operation :=
  [.record ⟨.get, some "br"⟩, .record ⟨.get, some "gzip"⟩, .write (.head {}), .read,
    .write (.chunk { payload := [1, 2] }), .write (.chunk { payload := [3], last := true }),
    .write (.aggregate ⟨{}, [4, 5], none⟩), .drain]

/-- With stored encoders what is emitted reads back, block by block. -/
theorem faithful_of_stored_run :
    let reads := fun coding bytes content => (layout coding).read bytes = ⟨content, .ended⟩
    let h := (new storing : Connection (Selector Encoder) (StreamCompressor Encoder)).run mixed
    Faithful storing.engine reads ∧ ∃ deliveries : List Delivery,
      accepted mixed h.answers = deliveries.flatMap Delivery.written ∧
      h.taken ++ h.last.outbound <+: deliveries.flatMap Delivery.sent ∧
      (h.last.lifecycle = .active →
        h.taken ++ h.last.outbound = deliveries.flatMap Delivery.sent) ∧
      ∀ r ∈ deliveries, r.Sound reads := by
  intro reads h
  have hf : Faithful storing.engine reads := Encoder.faithful_start
  exact ⟨hf, faithful_of_run storing hf mixed⟩

end stored

end Connection

end ContentCoding
