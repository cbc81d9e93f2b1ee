import ContentCoding.Proofs.Flushing
import ContentCoding.Proofs.Passing
import Mathlib.Data.List.Induction

/-!
# Content that is decodable on arrival

A response whose head calls for it is flushed piece by piece. What has left for it by then decodes
to all the pieces that were taken so far, so that none of them waits for a later one, for the end
of the coded form, or for the end of the connection.

* `upToDate_of_run`: in the middle of a response that is flushed its compressor is up to date.
* `decoded_of_last`: the last piece is decodable before the coded form is finished.
* `Connection.DecodesOnArrival`, `Body.DecodesOnArrival`: what is promised for a stage that writes a
  response, and for a body that is polled.
* `decodable_on_arrival`: **both are kept wherever the head calls for flushing.** Where its
  Content-Type cannot be read as text it calls for nothing.
-/

namespace ContentCoding

open Engine

/-- What is written amid a body is pieces of it. -/
theorem messages_of_amid {ops : List Operation} (h : ∀ op ∈ ops, op.isAmid = true) :
    .deactivate ∉ ops ∧
      ∃ ks : List Chunk, messages ops = ks.map .chunk ∧ ∀ k ∈ ks, k.last = false := by
  refine ⟨fun hd => Bool.false_ne_true (h _ hd), ?_⟩
  induction ops with
  | nil => exact ⟨[], rfl, nofun⟩
  | cons op ops ih =>
    obtain ⟨hop, hops⟩ := List.forall_mem_cons.1 h
    obtain ⟨ks, hks, hlast⟩ := ih hops
    rcases Operation.isAmid_cases hop with haside | ⟨k, rfl, hk⟩
    · refine ⟨ks, ?_, hlast⟩
      rw [messages, List.filterMap_cons_none (Operation.isAside_iff.1 haside).1]
      exact hks
    · exact ⟨k :: ks, congrArg (Message.chunk k :: ·) hks, List.forall_mem_cons.2 ⟨hk, hlast⟩⟩

/-- The body that leaves is what the pieces gave. -/
theorem payload_data (pieces : List (Octets × Octets)) :
    payload (pieces.flatMap fun p => Message.data p.2) = (pieces.map Prod.snd).flatten := by
  induction pieces with
  | nil => rfl
  | cons p pieces ih =>
    rw [List.flatMap_cons, payload_append, (carried_data p.2).1, ih, List.map_cons,
      List.flatten_cons]

/-- The body that is written is the pieces. -/
theorem payload_chunks (ks : List Chunk) :
    payload (ks.map .chunk) = (ks.map Chunk.payload).flatten := by
  rw [payload, List.flatMap_map, List.flatMap_def]
  rfl

namespace Connection

variable {ε : Type} [Engine ε] {engine : Coding → ε} {coding : Coding}
  {decodes : Coding → Octets → Octets → Prop} {c : Connection (Selector ε) (StreamCompressor ε)}
  {head : Head} {label : Octets} {l : Lease (StreamCompressor ε)} {ops : List Operation}

/-- The head of a coded response is accepted. -/
theorem answer_of_codes_head (hc : c.Codes (.head head) label l) :
    (c.perform (.write (.head head))).answer = .ok [] := by
  obtain ⟨hw, -⟩ := write_of_codes_head hc
  rw [perform, Step.map, hw]
  rfl

/-- **In the middle of a response that is flushed**, all that was written of its body is decodable
from what has left. -/
theorem upToDate_of_run (hf : Flushes engine decodes) (hc : c.Codes (.head head) label l)
    (hl : l.compressor.UpToDate (engine coding) (decodes coding) [] [])
    (hops : ∀ op ∈ ops, op.isAmid = true)
    (hok : ∀ a ∈ (c.run (.write (.head head) :: ops)).answers, ∃ ms, a = .ok ms) :
    let h := c.run (.write (.head head) :: ops)
    ∃ data t, h.last.lifecycle = .active ∧ h.last.cycle = some (Cycle.coding label l.id t) ∧
      h.taken ++ h.last.outbound = c.outbound ++
        .head { head with fields := Framing.chunked.announce label head.fields } :: data ∧
      (∀ m ∈ data, m.head? = none) ∧
      t.UpToDate (engine coding) (decodes coding) (payload (messages ops)) (payload data) := by
  intro h
  obtain ⟨-, hact, hcy, hout, -⟩ := write_of_codes_head hc
  obtain ⟨hd, ks, hm, hks⟩ := messages_of_amid hops
  have hhead := answer_of_codes_head hc
  obtain ⟨ms, hms, hact', hcy', hemitted, -⟩ := run_pieces hact hcy rfl hks hm hd
    fun a hmem => hok a (List.mem_cons_of_mem _ hmem)
  obtain ⟨pieces, t, htakes, hfst, hsent⟩ := Cycle.sendAll_pieces hks hms
  rw [hsent] at hms hcy'
  obtain rfl := Except.ok.inj hms
  have ht := Compressor.upToDate_of_takes hf htakes hl
  rw [hfst, ← payload_chunks, ← hm, ← payload_data] at ht
  refine ⟨_, t, hact', ?_, ?_, ?_, ht⟩
  · refine hcy'.trans ?_
    rw [hc.unclosed]
    rfl
  · change takenOf ((c.perform (.write (.head head))).answer ::
      ((c.write (.head head)).after.run ops).answers) ++
        ((c.write (.head head)).after.run ops).last.outbound = _
    rw [takenOf_cons, hhead, List.append_assoc, hemitted, hout, List.append_assoc]
    rfl
  · intro m hmem
    obtain ⟨p, -, hp⟩ := List.mem_flatMap.1 hmem
    rw [(Message.mem_data.1 hp).2]
    rfl

section written

variable {id : Nat} {t : StreamCompressor ε} {k : Chunk} {content given : Octets}

/-- A piece that is not empty is accepted. -/
theorem accepts_filled (hs : TakesInput engine) (ha : c.lifecycle = .active)
    (hcy : c.cycle = some (Cycle.coding label id t))
    (ht : t.UpToDate (engine coding) (decodes coding) content given) (hk : k.payload ≠ []) :
    (c.write (.chunk k)).answer = .ok () := by
  obtain ⟨pieces, -, hrun⟩ := ht.running
  have hcycle : (Cycle.coding label id t).Running (engine coding) pieces given :=
    ⟨label, ⟨id, t, false⟩, rfl, rfl, hrun⟩
  rcases send_cases hs hcycle k with ⟨-, ms, hms⟩ | ⟨hno, -⟩
  · rw [write_of_sent ha hcy hms]
  · simp [takesPiece, hk] at hno

/-- **The last piece** is decodable from what its compressor gives for it, before that is finished.
What leaves is that and the rest of the coded form. -/
theorem decoded_of_last (hf : Flushes engine decodes) (ha : c.lifecycle = .active)
    (hcy : c.cycle = some (Cycle.coding label id t))
    (ht : t.UpToDate (engine coding) (decodes coding) content given) (hk : k.last = true)
    (hw : (c.write (.chunk k)).answer = .ok ()) :
    ∃ out rest, (c.write (.chunk k)).after.outbound =
        c.outbound ++ (Message.data (out ++ rest) ++ [Message.ending k.trailers]) ∧
      (c.write (.chunk k)).events.head? = some (.compressed id k.payload (.ok out)) ∧
      decodes coding (given ++ out) (content ++ k.payload) ∧
      (Faithful engine decodes →
        decodes coding (given ++ (out ++ rest)) (content ++ k.payload)) := by
  cases hs : ((Cycle.coding label id t).send k).answer with
  | error f =>
    rw [write_of_unsent ha hcy hs] at hw
    cases hw
  | ok ms =>
    rw [write_of_sent ha hcy hs]
    simp only [Cycle.send, Cycle.coding, Cycle.isSkip, hk, Bool.false_eq_true, ↓reduceIte,
      Step.map] at hs ⊢
    obtain ⟨coded, hcoded, rfl⟩ := ok_of_map hs
    obtain ⟨out, u, rest, v, hcomp, hfin, -, rfl, hev⟩ :=
      Cycle.compressLast_of_encoded (l := ⟨id, t, false⟩) rfl hcoded
    obtain ⟨hnext, hdecoded⟩ := StreamCompressor.upToDate_compress hf ht hcomp
    obtain ⟨pieces, hin, hrun⟩ := hnext.running
    refine ⟨out, rest.getD [], rfl, ?_, hdecoded, fun hfaith => ?_⟩
    · rw [hev]
      rfl
    · cases hfin with
      | already hdone => cases hdone.symm.trans hrun.1
      | asked _ hlast =>
        obtain ⟨e, hend⟩ := StreamCompressor.ended_finish hrun (congrArg Prod.fst hlast)
        have hall := hfaith _ _ _ _ hend
        rwa [hin, List.append_assoc] at hall

end written

/-- **Pieces that are not empty are accepted**, whatever else is done in between. -/
theorem accepts_of_amid (hs : TakesInput engine) (hf : Flushes engine decodes)
    (hc : c.Codes (.head head) label l)
    (hl : l.compressor.UpToDate (engine coding) (decodes coding) [] [])
    (hops : ∀ op ∈ ops, op.isAmid = true)
    (hfilled : ∀ k, .write (.chunk k) ∈ ops → k.payload ≠ []) :
    ∀ a ∈ (c.run (.write (.head head) :: ops)).answers, ∃ ms, a = .ok ms := by
  induction ops using List.reverseRecOn with
  | nil =>
    intro a hmem
    rw [List.mem_singleton.1 hmem]
    exact ⟨[], answer_of_codes_head hc⟩
  | append_singleton ops op ih =>
    obtain ⟨hbefore, hop⟩ := List.forall_mem_append.1 hops
    have hok := ih hbefore fun k hk => hfilled k (List.mem_append_left _ hk)
    obtain ⟨data, t, hact, hcy, -, -, ht⟩ := upToDate_of_run hf hc hl hbefore hok
    rw [← List.cons_append, run_concat]
    refine List.forall_mem_append.2 ⟨hok, fun a hmem => ?_⟩
    rw [List.mem_singleton.1 hmem]
    have hlast : op.isAmid = true := hop op (List.mem_singleton.2 rfl)
    generalize (c.run (.write (.head head) :: ops)).last = c' at hact hcy ⊢
    rcases Operation.isAmid_cases hlast with haside | ⟨k, rfl, -⟩
    · obtain ⟨-, -, -, -, hanswer⟩ := perform_aside (c := c') haside
      exact hanswer
    · have hk := hfilled k (List.mem_append_right _ (List.mem_singleton.2 rfl))
      exact ⟨[], by rw [perform, Step.map, accepts_filled hs hact hcy ht hk]; rfl⟩

end Connection

section arrival

variable {ε : Type} [Engine ε]

/-- **A streamed response that is decodable on arrival**, from the head on that starts it. -/
structure Connection.DecodesOnArrival (c : Connection (Selector ε) (StreamCompressor ε))
    (head : Head) (engine : Coding → ε) (coding : Coding)
    (decodes : Coding → Octets → Octets → Prop) : Prop where
  /-- Pieces that are not empty are accepted, and so is another one behind them. -/
  accepted : TakesInput engine → ∀ ops : List Operation, (∀ op ∈ ops, op.isAmid = true) →
    (∀ k, .write (.chunk k) ∈ ops → k.payload ≠ []) →
    let h := c.run (.write (.head head) :: ops)
    (∀ a ∈ h.answers, ∃ ms, a = .ok ms) ∧
      ∀ k, k.payload ≠ [] → (h.last.write (.chunk k)).answer = .ok ()
  /-- At any point of the body the data that left by then decode to all that was written of it. The
  last piece is decodable from what its compressor gave for it, with which the rest of the coded
  form leaves. -/
  decoded : ∀ ops : List Operation, (∀ op ∈ ops, op.isAmid = true) →
    let h := c.run (.write (.head head) :: ops)
    (∀ a ∈ h.answers, ∃ ms, a = .ok ms) →
    ∃ sent data, h.taken ++ h.last.outbound = c.outbound ++ .head sent :: data ∧
      sent.fields.values .contentEncoding = [Octets.ofString coding.label] ∧
      (∀ m ∈ data, m.head? = none) ∧
      (payload (messages ops) ≠ [] →
        decodes coding (payload data) (payload (messages ops))) ∧
      ∀ k, k.last = true → (h.last.write (.chunk k)).answer = .ok () →
        ∃ id out rest, (h.last.write (.chunk k)).after.outbound =
            h.last.outbound ++ (Message.data (out ++ rest) ++ [Message.ending k.trailers]) ∧
          (h.last.write (.chunk k)).events.head? = some (.compressed id k.payload (.ok out)) ∧
          decodes coding (payload data ++ out) (payload (messages ops) ++ k.payload) ∧
          (Faithful engine decodes →
            decodes coding (payload data ++ (out ++ rest)) (payload (messages ops) ++ k.payload))

/-- **A body that is decodable on arrival**, where its data come from this source. -/
structure Body.DecodesOnArrival (body : Body (StreamCompressor ε)) (source : Source)
    (engine : Coding → ε) (coding : Coding) (decodes : Coding → Octets → Octets → Prop) :
    Prop where
  /-- After any number of polls that did not fail the data that they gave decode to all that the
  source gave by then: while it is read, and behind its end, too. -/
  decoded : ∀ n b, (body.polls n).last = .coded b → (∀ f, Poll.failed f ∉ (body.polls n).results) →
    b.phase = .reading ∨ Faithful engine decodes →
    ∃ pulled, source.script = pulled ++ b.source.script ∧
      (Poll.dataOf pulled ≠ [] →
        decodes coding (Poll.dataOf (body.polls n).results) (Poll.dataOf pulled))
  /-- Pieces that are not empty are decodable after as many polls, whatever the source does behind
  them, and before it does that. -/
  prompt : TakesInput engine → ∀ front rest, source.script = front ++ rest →
    (∀ p ∈ front, p.isFilled = true) →
    ∃ n b left, n ≤ front.length ∧ (body.polls n).last = .coded b ∧ b.phase = .reading ∧
      b.source.script = left ++ rest ∧ (∀ p ∈ (body.polls n).results, p.settles = false) ∧
      (Poll.dataOf front ≠ [] →
        decodes coding (Poll.dataOf (body.polls n).results) (Poll.dataOf front))

variable {s : Selector ε} {decodes : Coding → Octets → Octets → Prop} {head : Head}
  {label : Octets}

/-- What is coded for a head that calls for flushing starts up to date. -/
theorem Negotiator.upToDate_of_encoded (decodes : Coding → Octets → Octets → Prop)
    {n : Negotiator (Selector ε)} (hn : n.decision = s) {r : Request} {kind : BodyKind}
    {l : Lease (StreamCompressor ε)}
    (h : (n.negotiate head r kind).cycle.treatment = .encoded label l)
    (hcalls : head.fields.CallsForFlush) :
    ∃ coding, label = Octets.ofString coding.label ∧
      l.compressor.UpToDate (s.engine coding) (decodes coding) [] [] := by
  obtain ⟨-, coding, -, hlabel, hcomp⟩ := Negotiator.selected_of_encoded h
  refine ⟨coding, hlabel, ?_⟩
  rw [hcomp, hcalls.needsFlush, hn]
  exact StreamCompressor.upToDate_start _ _

/-- **A streamed response that is coded** and calls for flushing is decodable on arrival. -/
theorem Connection.decodesOnArrival_of_codes (hf : Flushes s.engine decodes)
    {c : Connection (Selector ε) (StreamCompressor ε)} (hd : c.negotiator.decision = s)
    {l : Lease (StreamCompressor ε)} (hc : c.Codes (.head head) label l)
    (hcalls : head.fields.CallsForFlush) :
    ∃ coding, label = Octets.ofString coding.label ∧
      c.DecodesOnArrival head s.engine coding decodes := by
  obtain ⟨_, _, r, rest, hm, -, ht⟩ := hc.granted
  obtain ⟨rfl, rfl⟩ := Prod.mk.inj (Option.some.inj hm)
  obtain ⟨coding, rfl, hl⟩ := Negotiator.upToDate_of_encoded decodes hd ht hcalls
  refine ⟨coding, rfl, fun hs ops hops hfilled => ?_, fun ops hops => ?_⟩
  · intro h
    have hok := accepts_of_amid hs hf hc hl hops hfilled
    obtain ⟨data, t, hact, hcy, -, -, hup⟩ := upToDate_of_run hf hc hl hops hok
    exact ⟨hok, fun k hk => accepts_filled hs hact hcy hup hk⟩
  · intro h hok
    obtain ⟨data, t, hact, hcy, hout, hdata, hup⟩ := upToDate_of_run hf hc hl hops hok
    refine ⟨_, data, hout, ?_, hdata, hup.decoded, fun k hk hw => ?_⟩
    · have hsent : ((Cycle.coding (Octets.ofString coding.label) l.id t).announce .chunked
          head).fields.values .contentEncoding = [Octets.ofString coding.label] :=
        Cycle.coding_announce rfl
      exact hsent
    · obtain ⟨out, rest, hlast⟩ := decoded_of_last hf hact hcy hup hk hw
      exact ⟨l.id, out, rest, hlast⟩

/-- A body that may be coded is streamed. -/
theorem Source.kind_of_skipReason? {source : Source} {r : Request}
    (h : skipReason? head r source.kind = none) : source.kind = .streamed := by
  have hrule := skipReason?_eq_none_iff.1 h .emptyBody
  unfold Source.kind at hrule ⊢
  split
  · rename_i hempty
    rw [if_pos hempty] at hrule
    cases hrule
  · rfl

omit [Engine ε] in
/-- **A coded body** reads its source through a compressor that was opened for it, and its head says
so. -/
theorem Exchange.coded_of_respond {n : Negotiator (Selector ε)} {r : Request}
    {inner : Response Source}
    (hl : (Exchange.respond r n inner).1.body.label? = some label) :
    ∃ l, (n.negotiate inner.head r inner.body.kind).cycle.treatment = .encoded label l ∧
      (Exchange.respond r n inner).1.head.fields.values .contentEncoding = [label] ∧
      (Exchange.respond r n inner).1.body = .coded
        (.going inner.body (Cycle.coding label l.id l.compressor) inner.body.script) := by
  rw [Exchange.label?_respond] at hl
  have hsent : ((n.negotiate inner.head r inner.body.kind).cycle.announce .delegated
      inner.head).fields.values .contentEncoding = [label] := Cycle.coding_announce hl
  obtain ⟨l, ht⟩ : ∃ l, (n.negotiate inner.head r inner.body.kind).cycle.treatment =
      .encoded label l := by
    unfold Cycle.label? at hl
    split at hl
    · cases hl
    · rename_i l ht
      exact ⟨l, Option.some.inj hl ▸ ht⟩
  obtain ⟨hr, hopen, hcy, -⟩ := Negotiator.negotiate_of_encoded ht
  have hrep : inner.body.kind.representation = .streamed := by
    rw [Source.kind_of_skipReason? hr]
    rfl
  obtain ⟨id, compressor, closed⟩ := l
  obtain rfl : closed = false := hopen
  refine ⟨_, ht, hsent, ?_⟩
  rw [Exchange.respond, hcy, hrep]
  rfl

/-- **A coded body** whose head calls for flushing is decodable on arrival. -/
theorem Exchange.decodesOnArrival_of_respond (hf : Flushes s.engine decodes)
    {n : Negotiator (Selector ε)} (hn : n.decision = s) {r : Request} {inner : Response Source}
    (hl : (Exchange.respond r n inner).1.body.label? = some label)
    (hcalls : inner.head.fields.CallsForFlush) :
    ∃ coding, label = Octets.ofString coding.label ∧
      (Exchange.respond r n inner).1.head.fields.values .contentEncoding = [label] ∧
      (Exchange.respond r n inner).1.body.DecodesOnArrival inner.body s.engine coding decodes := by
  obtain ⟨l, ht, hhead, hbody⟩ := Exchange.coded_of_respond hl
  obtain ⟨coding, hlabel, hup⟩ := Negotiator.upToDate_of_encoded decodes hn ht hcalls
  refine ⟨coding, hlabel, hhead, ?_⟩
  rw [hbody]
  refine ⟨fun n b hlast hno hb => ?_, fun hs front rest hscript hfront => ?_⟩
  · have hreached := Body.reached_of_polls inner.body label l.id l.compressor inner.body.script n
    exact Body.decoded_of_reached hf hup hreached hlast hno hb
  · obtain ⟨pieces, -, hrun⟩ := hup.running
    obtain ⟨answers, t, hreads, hlen⟩ := Compressor.reads_of_filled hs hfront hrun rest
    obtain ⟨pulled, hpulled, ht⟩ := Compressor.upToDate_of_reads hf hreads hup
    obtain rfl := List.append_cancel_right hpulled
    obtain ⟨u, left, hres, hlast⟩ := Body.polls_of_reads inner.body label l.id hreads
    rw [← hscript] at hres hlast
    refine ⟨answers.length, _, left, hlen, hlast, rfl, rfl, ?_⟩
    rw [hres]
    exact ⟨hreads.unsettled, ht.decoded⟩

/-- **Streaming content is decodable on arrival.** With engines whose flushed output is decodable, a
response that a stage codes, and whose head calls for flushing, is decodable on arrival, whatever
the stage did before; and so is the body of a response that a service codes. -/
theorem decodable_on_arrival (hf : Flushes s.engine decodes) :
    (∀ before head label l,
      let c := ((Connection.new s : Connection (Selector ε) (StreamCompressor ε)).run before).last
      c.Codes (.head head) label l → head.fields.CallsForFlush →
      ∃ coding, label = Octets.ofString coding.label ∧
        c.DecodesOnArrival head s.engine coding decodes) ∧
    ∀ (n : Negotiator (Selector ε)) (r : Request) (inner : Response Source) (label : Octets),
      let outer := (Exchange.respond r n inner).1
      n.decision = s → outer.body.label? = some label → inner.head.fields.CallsForFlush →
      ∃ coding, label = Octets.ofString coding.label ∧
        outer.head.fields.values .contentEncoding = [label] ∧
        outer.body.DecodesOnArrival inner.body s.engine coding decodes := by
  constructor
  · intro before head label l c hc hcalls
    have hd : c.negotiator.decision = s := Connection.decision_run (Connection.new s) before
    exact Connection.decodesOnArrival_of_codes hf hd hc hcalls
  · intro n r inner label outer hn hl hcalls
    exact Exchange.decodesOnArrival_of_respond hf hn hl hcalls

end arrival

section stored

open Stored

/-- The head of a stream of events. -/
def eventful : Head := { fields := [⟨.contentType, Octets.ofString "text/event-stream"⟩] }

/-- Two events, of which the first is taken before the second is written. -/
def events : List Operation :=
  [.write (.chunk { payload := [1, 2] }), .drain, .write (.chunk { payload := [3] })]

/-- A source of two events that is waited for, and fails then. -/
def breaking : Source :=
  { script := [.frame (.data [1, 2]), .pending, .frame (.data [3]), .failed ⟨"broken"⟩] }

theorem callsForFlush_eventful : eventful.fields.CallsForFlush :=
  .inl ⟨_, rfl, by decide, .inl List.prefix_rfl⟩

/-- Both events can be decoded, though neither response has come to its end. -/
theorem decodable_on_arrival_of_events :
    let c := ((Connection.new storing : Connection (Selector Encoder)
      (StreamCompressor Encoder)).run [.record ⟨.get, some "gzip"⟩]).last
    let h := c.run (.write (.head eventful) :: events)
    let outer := (Exchange.respond ⟨.get, some "br"⟩ ⟨storing, 0⟩ ⟨eventful, breaking⟩).1
    Flushes storing.engine Encoder.Decodes ∧ eventful.fields.CallsForFlush ∧
      (∃ l, c.Codes (.head eventful) (Octets.ofString "gzip") l) ∧
      outer.body.label? = some (Octets.ofString "br") ∧
      (∃ sent data, h.taken ++ h.last.outbound = .head sent :: data ∧
        Encoder.Decodes .gzip (payload data) [1, 2, 3]) ∧
      ∃ n, n ≤ 3 ∧ (∀ p ∈ (outer.body.polls n).results, p.settles = false) ∧
        Encoder.Decodes .brotli (Poll.dataOf (outer.body.polls n).results) [1, 2, 3] := by
  intro c h outer
  have hf : Flushes storing.engine Encoder.Decodes := Encoder.flushes_start
  have hs : TakesInput storing.engine := Encoder.takesInput_start
  have hcalls := callsForFlush_eventful
  have hc : c.Codes (.head eventful) (Octets.ofString "gzip")
      ⟨0, .start (Encoder.start .gzip) true, false⟩ :=
    ⟨rfl, rfl, eventful, .streamed, ⟨.get, some "gzip"⟩, [], rfl, rfl, by decide⟩
  have hl : outer.body.label? = some (Octets.ofString "br") := by decide
  obtain ⟨hstream, hbody⟩ := decodable_on_arrival (s := storing) hf
  obtain ⟨coding, hgzip, ⟨haccepted, hdecoded⟩⟩ := hstream _ _ _ _ hc hcalls
  obtain ⟨other, hbrotli, -, ⟨-, hprompt⟩⟩ := hbody _ _ _ _ rfl hl hcalls
  obtain rfl : coding = .gzip := by cases coding <;> revert hgzip <;> decide
  obtain rfl : other = .brotli := by cases other <;> revert hbrotli <;> decide
  obtain ⟨hok, -⟩ := haccepted hs events (by decide) (by simp [events])
  obtain ⟨sent, data, hout, -, -, hdata, -⟩ := hdecoded events (by decide) hok
  obtain ⟨n, b, left, hn, -, -, -, hsettles, hgiven⟩ :=
    hprompt hs (breaking.script.take 3) (breaking.script.drop 3) rfl (by decide)
  exact ⟨hf, hcalls, ⟨_, hc⟩, hl, ⟨sent, data, hout, hdata (by decide)⟩, n, hn, hsettles,
    hgiven (by decide)⟩

/-- **A Content-Type that cannot be read calls for nothing**, though it begins as that of a stream
of events: the event is accepted, and nothing leaves that it could be decoded from. -/
theorem stalled_of_unreadable_type :
    let v : Octets := Octets.ofString "text/event-stream;" ++ [0xE9]
    let head : Head := { fields := [⟨.contentType, v⟩] }
    let c := ((Connection.new storing : Connection (Selector Encoder)
      (StreamCompressor Encoder)).run [.record ⟨.get, some "zstd"⟩]).last
    let h := c.run [.write (.head head), .write (.chunk { payload := [97] })]
    Flushes storing.engine Encoder.Decodes ∧ head.fields.first? .contentType = some v ∧
      Octets.ofString "text/event-stream" <+: v ∧
      (∃ l, c.Codes (.head head) (Octets.ofString "zstd") l) ∧
      (∀ a ∈ h.answers, ∃ ms, a = .ok ms) ∧
      (∃ sent, h.taken ++ h.last.outbound = [.head sent]) ∧
      ¬ Encoder.Decodes .zstd [] [97] := by
  intro v head c h
  let k : Chunk := { payload := [97] }
  let l : Lease (StreamCompressor Encoder) := ⟨0, .start (Encoder.start .zstd) false, false⟩
  let cy : Cycle (StreamCompressor Encoder) :=
    ⟨.encoded (Octets.ofString "zstd") l, .streamed, false⟩
  let sent : Head :=
    { head with fields := Framing.chunked.announce (Octets.ofString "zstd") head.fields }
  have hc : c.Codes (.head head) (Octets.ofString "zstd") l :=
    ⟨rfl, rfl, head, .streamed, ⟨.get, some "zstd"⟩, [], rfl, rfl, by decide⟩
  obtain ⟨-, hact, hcy, hout, -⟩ := Connection.write_of_codes_head hc
  -- the piece is held, and not flushed
  have hfeed : (feed (Encoder.start .zstd) [97]).1 = .ok [] := by
    have he : Engine.encode (Encoder.start .zstd) [97] bufferSize = .ok _ := rfl
    rw [feed_of_done he (by decide)]
    rfl
  have hcompress : (l.compressor.compress [97]).1 = .ok [] := by
    rw [StreamCompressor.compress_of_ok rfl rfl hfeed]
    rfl
  have hanswer : (cy.compress [97]).answer = .ok [] := by
    rw [(Cycle.answers_of_encoded rfl rfl rfl [97]).1, hcompress]
    rfl
  have hsent : (cy.send k).answer = .ok [] := by
    change (cy.compress [97]).answer.map Message.data = _
    rw [hanswer]
    rfl
  have hhead := Connection.answer_of_codes_head hc
  have hchunk := Connection.perform_of_sent hact hcy hsent
  have hanswers : h.answers = [.ok [], .ok []] := by
    change [(c.perform (.write (.head head))).answer,
      ((c.write (.head head)).after.perform (.write (.chunk k))).answer] = _
    rw [hhead, hchunk]
  have hlast : h.last.outbound = [.head sent] := by
    change ((c.write (.head head)).after.perform (.write (.chunk k))).after.outbound = _
    rw [hchunk]
    change (c.write (.head head)).after.outbound ++ [] = _
    rw [hout, List.append_nil]
    rfl
  refine ⟨Encoder.flushes_start, rfl, List.prefix_append _ _, ⟨l, hc⟩, ?_, ?_, ?_⟩
  · rw [hanswers]
    simp
  · refine ⟨sent, ?_⟩
    change takenOf h.answers ++ h.last.outbound = _
    rw [hanswers, hlast]
    rfl
  · rintro ⟨p, -, hread⟩
    have hscan : (layout .zstd).scan [] = .short := rfl
    rw [Layout.read_nil hscan] at hread
    cases hread

end stored

end ContentCoding
