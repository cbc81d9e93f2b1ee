import ContentCoding.Proofs.Writing
import ContentCoding.Scripted

/-!
# Heads of coded responses

The head of a coded response must say how long its body is, and in one way only. A streamed
response is sent in chunks, and its head says that alone. A whole response that declared a length
keeps to a length, beside which its head may still speak of chunks.

* `Connection.Codes`: a stage codes the response that a message starts.
* `write_of_codes_head`, `write_of_codes_aggregate`: what it writes for such a response.
* `framedOnce_announce`, `framedOnce_announceWhole`: the framing of a head, by the fields that were
  written.
* `framedOnce_iff_not_doublyFramed`: **a coded response has one framing, unless a whole one was
  written with both.**
-/

namespace ContentCoding

/-- **One framing and no other**: chunks without a length, or one length without chunks. -/
def Fields.FramedOnce (h : Fields) : Prop :=
  h.values .transferEncoding = [Octets.ofString "chunked"] ∧ h.values .contentLength = [] ∨
    (h.values .contentLength).length = 1 ∧ h.values .transferEncoding = []

instance (h : Fields) : Decidable h.FramedOnce := inferInstanceAs (Decidable (_ ∨ _))

/-- **A whole response that was written with both framings.** -/
def Message.DoublyFramed (m : Message) : Prop :=
  ∃ a, m = .aggregate a ∧ a.head.fields.has .contentLength = true ∧
    a.head.fields.has .transferEncoding = true

/-- What leaves for a coded body starts no response. -/
theorem head?_of_coded {out : Octets} {trailers : Option Fields} {m : Message}
    (hm : m ∈ Message.data out ++ [Message.ending trailers]) : m.head? = none := by
  rcases List.mem_append.1 hm with hm | hm
  · rw [(Message.mem_data.1 hm).2]
    rfl
  · rw [List.mem_singleton.1 hm]
    rfl

/-- What leaves for a whole body that is coded: its head, and behind it what its compressor gave. -/
theorem Cycle.answer_sendWhole {σ : Type} [Compressor σ] (label : Octets) (l : Lease σ)
    (rep : Representation) (fin : Bool) (a : Aggregate) :
    (sendWhole ⟨.encoded label l, rep, fin⟩ a).answer =
      (compressLast ⟨.encoded label l, rep, fin⟩ a.payload).answer.map fun out =>
        .head (announceWhole ⟨.encoded label l, rep, fin⟩ a.head out.length) ::
          (Message.data out ++ [Message.ending a.trailers]) := rfl

section framing

variable {σ : Type} {cy : Cycle σ} {label : Octets} {head : Head}

/-- A body in chunks is announced in chunks, whatever was written. -/
theorem values_announce_chunked (hl : cy.label? = some label) (head : Head) :
    (cy.announce .chunked head).fields.values .contentLength = [] ∧
      (cy.announce .chunked head).fields.values .transferEncoding =
        [Octets.ofString "chunked"] := by
  have hf : (cy.announce .chunked head).fields = Framing.chunked.announce label head.fields := by
    rw [Cycle.announce, Cycle.fields, hl]
  obtain ⟨hlen, hte⟩ := Framing.values_delimit_chunked (h := head.fields)
  rw [hf]
  constructor
  · rw [Framing.values_announce_delimit (by decide) (by decide) (by decide), hlen]
  · rw [Framing.values_announce_delimit (by decide) (by decide) (by decide), hte]

/-- A whole body that declared a length is announced with its coded one, beside the chunks that
were declared. -/
theorem values_announceWhole_of_has (hl : cy.label? = some label)
    (hc : head.fields.has .contentLength = true) (size : Nat) :
    (cy.announceWhole head size).fields.values .contentLength =
        [Octets.ofString (toString size)] ∧
      (cy.announceWhole head size).fields.values .transferEncoding =
        head.fields.values .transferEncoding := by
  have hf : (cy.announceWhole head size).fields =
      (Framing.length.announce label head.fields).setLength size := by
    simp [Cycle.announceWhole, Framing.forAggregate, hc, Cycle.announce, Cycle.fields, hl]
  rw [hf, Fields.setLength]
  constructor
  · rw [Fields.values_insert, if_pos rfl]
  · rw [Fields.values_insert, if_neg (by decide),
      Framing.values_announce_delimit (by decide) (by decide) (by decide), Framing.delimit]

/-- A whole body that declared no length is announced in chunks. -/
theorem values_announceWhole_of_not_has (hl : cy.label? = some label)
    (hc : head.fields.has .contentLength = false) (size : Nat) :
    (cy.announceWhole head size).fields.values .contentLength = [] ∧
      (cy.announceWhole head size).fields.values .transferEncoding =
        [Octets.ofString "chunked"] := by
  have hf : cy.announceWhole head size = cy.announce .chunked head := by
    simp [Cycle.announceWhole, Framing.forAggregate, hc]
  rw [hf]
  exact values_announce_chunked hl head

theorem framedOnce_announce (hl : cy.label? = some label) :
    (cy.announce .chunked head).fields.FramedOnce := by
  obtain ⟨hlen, hte⟩ := values_announce_chunked hl head
  exact .inl ⟨hte, hlen⟩

/-- The head of a whole response has one framing unless it was written with two. -/
theorem framedOnce_announceWhole (hl : cy.label? = some label) (size : Nat) :
    (cy.announceWhole head size).fields.FramedOnce ↔
      ¬ (head.fields.has .contentLength = true ∧ head.fields.has .transferEncoding = true) := by
  cases hc : head.fields.has .contentLength with
  | false =>
    obtain ⟨hlen, hte⟩ := values_announceWhole_of_not_has hl hc size
    exact ⟨fun _ hboth => Bool.false_ne_true hboth.1, fun _ => .inl ⟨hte, hlen⟩⟩
  | true =>
    obtain ⟨hlen, hte⟩ := values_announceWhole_of_has hl hc size
    -- a length stands there now, so that what was written of chunks decides
    have hone : (cy.announceWhole head size).fields.FramedOnce ↔
        head.fields.values .transferEncoding = [] := by
      rw [Fields.FramedOnce, hlen, hte]
      simp
    rw [hone, ← Fields.has_eq_false_iff]
    simp

end framing

namespace Negotiator

variable {δ σ : Type} [Decision δ σ] {n : Negotiator δ} {head : Head} {r : Request}
  {body other : BodyKind} {label : Octets} {l : Lease σ}

/-- **A negotiation that comes to coding**: no rule forbids it, the decision was consulted, and the
compressor that it opened is at hand. -/
theorem negotiate_of_encoded
    (h : (n.negotiate head r body).cycle.treatment = .encoded label l) :
    skipReason? head r body = none ∧ l.closed = false ∧
      (n.negotiate head r body).cycle = ⟨.encoded label l, body.representation, false⟩ ∧
      (n.negotiate head r body).events = [.consulted head r.accept, .opened l.id] := by
  cases hr : skipReason? head r body with
  | some reason =>
    rw [negotiate_of_skipReason hr] at h
    cases h
  | none =>
    rcases hc : Decision.consult n.decision head r.accept with ⟨_ | e, d⟩
    · rw [negotiate_of_declined hr hc] at h
      cases h
    · rw [negotiate_of_granted hr hc] at h ⊢
      obtain ⟨rfl, rfl⟩ := Treatment.encoded.inj h
      exact ⟨rfl, rfl, rfl, rfl⟩

/-- A decision does not hear how the body is delivered. -/
theorem treatment_negotiate (h : skipReason? head r body = none)
    (ho : skipReason? head r other = none) :
    (n.negotiate head r body).cycle.treatment = (n.negotiate head r other).cycle.treatment := by
  rcases hc : Decision.consult n.decision head r.accept with ⟨_ | e, d⟩
  · rw [negotiate_of_declined h hc, negotiate_of_declined ho hc]
  · rw [negotiate_of_granted h hc, negotiate_of_granted ho hc]

end Negotiator

namespace Connection

variable {δ σ : Type} [Decision δ σ] [Compressor σ] {c : Connection δ σ} {m : Message}
  {label : Octets} {l : Lease σ}

/-- **A stage codes the response that a message starts**: no other one is open, a request waits,
and the negotiation for it grants this label and this compressor. -/
structure Codes (c : Connection δ σ) (m : Message) (label : Octets) (l : Lease σ) : Prop where
  active : c.lifecycle = .active
  idle : c.cycle = none
  granted : ∃ head body r rest, m.start? = some (head, body) ∧ c.backlog.waiting = r :: rest ∧
    (c.negotiated r head body).cycle.treatment = .encoded label l

omit [Compressor σ] in
/-- The compressor of a response that starts is open. -/
theorem Codes.unclosed (h : c.Codes m label l) : l.closed = false := by
  obtain ⟨_, _, _, _, -, -, ht⟩ := h.granted
  exact (Negotiator.negotiate_of_encoded ht).2.1

/-- **The head of a coded response is written**, and its cycle is open then. -/
theorem write_of_codes_head {head : Head} (h : c.Codes (.head head) label l) :
    let w := c.write (.head head)
    w.answer = .ok () ∧ w.after.lifecycle = .active ∧
      w.after.cycle = some ⟨.encoded label l, .streamed, false⟩ ∧
      w.after.outbound = c.outbound ++
        [.head { head with fields := Framing.chunked.announce label head.fields }] ∧
      ∃ accept, w.events = [.consulted head accept, .opened l.id] := by
  obtain ⟨ha, hc, _, _, r, rest, hm, hb, ht⟩ := h
  obtain ⟨rfl, rfl⟩ := Prod.mk.inj (Option.some.inj hm)
  obtain ⟨-, -, hcy, hev⟩ := Negotiator.negotiate_of_encoded ht
  intro w
  have hw : w = _ := write_of_waiting ha hc hb head
  rw [hw]
  refine ⟨rfl, ha, congrArg some hcy, ?_, r.accept, hev⟩
  simp only [negotiated, hcy]
  rfl

/-- **A whole response that is coded is written as its cycle sends it**, or not at all. -/
theorem write_of_codes_aggregate {a : Aggregate} (h : c.Codes (.aggregate a) label l) :
    let sent := Cycle.sendWhole ⟨.encoded label l, .aggregate, false⟩ a
    (∀ ms, sent.answer = .ok ms → (c.write (.aggregate a)).answer = .ok () ∧
        (c.write (.aggregate a)).after.outbound = c.outbound ++ ms) ∧
      ∀ f, sent.answer = .error f → (c.write (.aggregate a)).answer = .error f ∧
        (c.write (.aggregate a)).after.lifecycle = .failed ∧
        (c.write (.aggregate a)).after.outbound = [] := by
  obtain ⟨ha, hc, _, _, r, rest, hm, hb, ht⟩ := h
  obtain ⟨rfl, rfl⟩ := Prod.mk.inj (Option.some.inj hm)
  obtain ⟨-, -, hcy, -⟩ := Negotiator.negotiate_of_encoded ht
  intro sent
  have hw := c.wrote (.aggregate a)
  generalize c.write (.aggregate a) = w at hw ⊢
  cases hw with
  | terminated hn => exact absurd ha hn
  | overlaps _ _ hsome => cases hc.symm.trans hsome
  | unmatched _ _ _ hnil => cases hb.symm.trans hnil
  | aggregate _ _ hb' hn hs =>
    obtain ⟨rfl, rfl⟩ := List.cons.inj (hb.symm.trans hb')
    rw [hn, negotiated, hcy] at hs
    refine ⟨fun ms hms => ⟨rfl, ?_⟩, fun f hf => ?_⟩
    · rw [Except.ok.inj (hms.symm.trans hs)]
    · cases hf.symm.trans hs
  | aggregateFailed _ _ hb' hn hs =>
    obtain ⟨rfl, rfl⟩ := List.cons.inj (hb.symm.trans hb')
    rw [hn, negotiated, hcy] at hs
    refine ⟨fun ms hms => ?_, fun f hf => ⟨?_, rfl, rfl⟩⟩
    · cases hms.symm.trans hs
    · rw [Except.error.inj (hf.symm.trans hs)]

/-- **The framing of coded responses.** The head that is emitted has one framing and no other, but
for a whole response that was written with both: then it gets its coded length, and all that was
written of chunks stays beside it. -/
theorem framedOnce_iff_not_doublyFramed (h : c.Codes m label l)
    (hok : (c.write m).answer = .ok ()) :
    ∃ head sent body, m.head? = some head ∧
      (c.write m).after.outbound = c.outbound ++ .head sent :: body ∧
      (∀ x ∈ body, x.head? = none) ∧
      (sent.fields.FramedOnce ↔ ¬ m.DoublyFramed) ∧
      (m.DoublyFramed → ∃ size : Nat,
        sent.fields.values .contentLength = [Octets.ofString (toString size)] ∧
        sent.fields.values .transferEncoding = head.fields.values .transferEncoding) := by
  cases m with
  | chunk k =>
    obtain ⟨_, _, _, _, hm, -⟩ := h.granted
    cases hm
  | head head =>
    obtain ⟨-, -, -, hout, -⟩ := write_of_codes_head h
    have hno : ¬ (Message.head head).DoublyFramed := by
      rintro ⟨a, ha, -⟩
      cases ha
    let cy : Cycle σ := ⟨.encoded label l, .streamed, false⟩
    have honce : (cy.announce .chunked head).fields.FramedOnce := framedOnce_announce rfl
    exact ⟨head, cy.announce .chunked head, [], rfl, hout, nofun, ⟨fun _ => hno, fun _ => honce⟩,
      fun hd => absurd hd hno⟩
  | aggregate a =>
    obtain ⟨hsent, hfail⟩ := write_of_codes_aggregate h
    have hdouble : (Message.aggregate a).DoublyFramed ↔
        a.head.fields.has .contentLength = true ∧ a.head.fields.has .transferEncoding = true := by
      constructor
      · rintro ⟨b, hb, hboth⟩
        cases hb
        exact hboth
      · intro hboth
        exact ⟨a, rfl, hboth⟩
    cases hs : (Cycle.sendWhole ⟨.encoded label l, .aggregate, false⟩ a).answer with
    | error f => cases (hfail f hs).1.symm.trans hok
    | ok ms =>
      obtain ⟨-, hout⟩ := hsent ms hs
      rw [Cycle.answer_sendWhole] at hs
      obtain ⟨out, -, rfl⟩ := ok_of_map hs
      refine ⟨a.head, _, _, rfl, hout, ?_, ?_, ?_⟩
      · exact fun x => head?_of_coded
      · rw [hdouble]
        exact framedOnce_announceWhole rfl out.length
      · intro hd
        exact ⟨out.length, values_announceWhole_of_has rfl (hdouble.1 hd).1 out.length⟩

section script

open Scripted

/-- A stage that codes everything, with one request waiting. -/
def lettered : Connection Script Machine :=
  (new ⟨[some ⟨Octets.ofString "x", {}⟩], 0⟩).record ⟨.get, none⟩

/-- A whole response with these framing fields. -/
def framedBy (fields : Fields) : Aggregate := ⟨{ fields := fields }, [1, 2, 3], none⟩

theorem codes_lettered {a : Aggregate} (h : skipReason? a.head ⟨.get, none⟩
    (.aggregate a.payload.length) = none) :
    lettered.Codes (.aggregate a) (Octets.ofString "x") ⟨0, { behaviour := {} }, false⟩ := by
  refine ⟨rfl, rfl, _, _, _, [], rfl, rfl, ?_⟩
  rw [negotiated, Negotiator.negotiate, h]
  rfl

/-- A length that was declared twice, and wrong, is the right one once. -/
theorem framedOnce_of_declared_length :
    let a := framedBy [⟨.contentLength, Octets.ofString "7"⟩, ⟨.contentLength, Octets.ofString "8"⟩]
    let w := lettered.write (.aggregate a)
    lettered.Codes (.aggregate a) (Octets.ofString "x") ⟨0, { behaviour := {} }, false⟩ ∧
      w.answer = .ok () ∧ ∃ sent body, w.after.outbound = .head sent :: body ∧
        sent.fields.FramedOnce := by
  intro a w
  have hc := codes_lettered (a := a) (by decide)
  have hok : w.answer = .ok () := by decide
  obtain ⟨head, sent, body, -, hout, -, honce, -⟩ := framedOnce_iff_not_doublyFramed hc hok
  refine ⟨hc, hok, sent, body, hout, honce.2 ?_⟩
  rintro ⟨b, hb, -, hte⟩
  obtain rfl := Message.aggregate.inj hb
  revert hte
  decide

/-- A whole response that was written with both framings is sent with both. -/
theorem not_framedOnce_of_both :
    let a := framedBy [⟨.contentLength, Octets.ofString "3"⟩,
      ⟨.transferEncoding, Octets.ofString "chunked"⟩]
    let w := lettered.write (.aggregate a)
    lettered.Codes (.aggregate a) (Octets.ofString "x") ⟨0, { behaviour := {} }, false⟩ ∧
      w.answer = .ok () ∧ ∃ sent body, w.after.outbound = .head sent :: body ∧
        ¬ sent.fields.FramedOnce := by
  intro a w
  have hc := codes_lettered (a := a) (by decide)
  have hok : w.answer = .ok () := by decide
  obtain ⟨hsent, -⟩ := write_of_codes_aggregate hc
  refine ⟨hc, hok, _, _, (hsent _ rfl).2, ?_⟩
  decide

end script

end Connection

end ContentCoding
