import ContentCoding.Proofs.Lifetimes
import ContentCoding.Proofs.Traffic

/-!
# Responses that pass as they are

A response that a rule forbids to code, or that the decision declines, leaves the stage as it was
written, wherever it stands among others. The test that passes a body on, the label that a head
announces and the mark that a cycle is finished are kept in different places; here they agree.

* `isSkip_negotiate_iff`: which responses pass.
* `perform_amid`, `run_amid`: what a stage does in the middle of a response that passes.
* `passes_of_run`: **each message of such a response leaves alone and as it was written**, and no
  compressor is opened or called for it. The response is complete with its last chunk, or at once
  where it is whole.
-/

namespace ContentCoding

/-- **Whether an operation can stand in the middle of a body**: it writes a piece that is not the
last one, or leaves the response alone. -/
def Operation.isAmid : Operation → Bool
  | .write (.chunk k) => !k.last
  | op => op.isAside

/-- Amid a body a piece is written, or the response is left alone. -/
theorem Operation.isAmid_cases {op : Operation} (h : op.isAmid = true) :
    op.isAside = true ∨ ∃ k, op = .write (.chunk k) ∧ k.last = false := by
  cases op with
  | record | read | drain => exact .inl rfl
  | deactivate => cases h
  | write m =>
    cases m with
    | head | aggregate => cases h
    | chunk k => exact .inr ⟨k, rfl, Bool.not_eq_true' _ ▸ h⟩

namespace Negotiator

variable {δ σ : Type} [Decision δ σ] {n : Negotiator δ} {head : Head} {r : Request}
  {body : BodyKind}

/-- **A response that passes as it is**: a rule forbids to code it, or the decision declines. -/
def LetsPass (n : Negotiator δ) (head : Head) (r : Request) (body : BodyKind) : Prop :=
  skipReason? head r body ≠ none ∨ (Decision.consult n.decision head r.accept).1 = none

/-- **What passes is what has no compressor.** -/
theorem isSkip_negotiate_iff :
    (n.negotiate head r body).cycle.isSkip = true ↔ n.LetsPass head r body := by
  unfold LetsPass
  cases hr : skipReason? head r body with
  | some reason =>
    rw [negotiate_of_skipReason hr]
    simp [Cycle.isSkip]
  | none =>
    rcases hc : Decision.consult n.decision head r.accept with ⟨_ | e, d⟩
    · simp [negotiate_of_declined hr hc, Cycle.isSkip]
    · simp [negotiate_of_granted hr hc, Cycle.isSkip]

/-- No compressor is opened for what passes. -/
theorem calls_of_isSkip (h : (n.negotiate head r body).cycle.isSkip = true) :
    calls (n.negotiate head r body).events = [] := by
  cases hr : skipReason? head r body with
  | some reason =>
    rw [negotiate_of_skipReason hr]
    rfl
  | none =>
    rcases hc : Decision.consult n.decision head r.accept with ⟨_ | e, d⟩
    · rw [negotiate_of_declined hr hc]
      rfl
    · rw [negotiate_of_granted hr hc] at h
      cases h

end Negotiator

namespace Cycle

variable {σ : Type} [Compressor σ] {cy : Cycle σ}

/-- What passes as it is has nothing to give up. -/
theorem release_of_isSkip (h : cy.isSkip = true) : cy.release = [] := by
  obtain ⟨treatment, rep, fin⟩ := cy
  cases treatment with
  | skipped reason => rfl
  | encoded label l => cases h

end Cycle

namespace Connection

variable {δ σ : Type} [Decision δ σ] [Compressor σ] {c : Connection δ σ} {cy : Cycle σ}
  {op : Operation} {ops : List Operation} {k : Chunk}

/-- **A message passes a stage**: it is accepted, it and nothing else is put behind what is to be
sent, and no compressor is opened or called. -/
structure Passes (c : Connection δ σ) (m : Message) : Prop where
  accepted : (c.write m).answer = .ok ()
  sent : (c.write m).after.outbound = c.outbound ++ [m]
  uncoded : calls (c.write m).events = []

/-- **In the middle of a response that passes**: its cycle is open, has no compressor, and waits for
the last chunk. -/
structure Passing (c : Connection δ σ) (cy : Cycle σ) : Prop where
  active : c.lifecycle = .active
  current : c.cycle = some cy
  skipped : cy.isSkip = true
  unfinished : cy.finished = false

/-- A chunk passes, and ends the response if it is the last one. -/
theorem write_of_passing (h : c.Passing cy) (k : Chunk) :
    c.write (.chunk k) =
      ⟨.ok (), { c with
        outbound := c.outbound ++ [.chunk k]
        cycle := if k.last then none else some cy }, []⟩ := by
  obtain ⟨ha, hc, hp, hf⟩ := h
  have hsend : cy.send k = .pure [.chunk k] { cy with finished := k.last } := by
    rw [Cycle.send_of_isSkip hp, hf, Bool.false_or]
  have hrelease : Cycle.release { cy with finished := k.last } = [] := Cycle.release_of_isSkip hp
  have hsame : k.last = false → { cy with finished := k.last } = cy := by
    intro hk
    rw [hk, ← hf]
  rw [write_of_sent ha hc (congrArg Step.answer hsend), hsend]
  simp only [Step.pure, sent, hrelease, List.nil_append, ite_self]
  cases hk : k.last with
  | true => rfl
  | false =>
    rw [hk] at hsame
    simp [hsame rfl]

/-- A chunk of a response that passes leaves as it was written. -/
theorem passes_chunk (h : c.Passing cy) (k : Chunk) :
    c.Passes (.chunk k) ∧ ((c.write (.chunk k)).after.cycle = none ↔ k.last = true) := by
  have hw := write_of_passing h k
  refine ⟨⟨by rw [hw], by rw [hw], by rw [hw]; rfl⟩, ?_⟩
  rw [hw]
  cases k.last <;> simp

/-- **Amid a response that passes** an operation answers, loses nothing, and writes what it is told
to. -/
theorem perform_amid (h : c.Passing cy) (hop : op.isAmid = true) :
    (c.perform op).after.Passing cy ∧
      takenOf [(c.perform op).answer] ++ (c.perform op).after.outbound =
        c.outbound ++ op.message?.toList ∧
      (c.perform op).events = [] ∧ ∃ ms, (c.perform op).answer = .ok ms := by
  rcases Operation.isAmid_cases hop with haside | ⟨k, rfl, hk⟩
  · obtain ⟨hl, hc, ho, he, hok⟩ := perform_aside (c := c) haside
    obtain ⟨hnone, -⟩ := Operation.isAside_iff.1 haside
    refine ⟨⟨hl.trans h.active, hc.trans h.current, h.skipped, h.unfinished⟩, ?_, he, hok⟩
    rw [ho, hnone, Option.toList_none, List.append_nil]
  · rw [perform, write_of_passing h k, hk]
    exact ⟨⟨h.active, rfl, h.skipped, h.unfinished⟩, rfl, rfl, [], rfl⟩

/-- **Amid a response that passes all that is written leaves**, in order and as it was written. -/
theorem run_amid (h : c.Passing cy) (hops : ∀ op ∈ ops, op.isAmid = true) :
    (c.run ops).last.Passing cy ∧
      takenOf (c.run ops).answers ++ (c.run ops).last.outbound = c.outbound ++ messages ops ∧
      (c.run ops).events = [] ∧ ∀ a ∈ (c.run ops).answers, ∃ ms, a = .ok ms := by
  induction ops generalizing c with
  | nil => exact ⟨h, (List.append_nil _).symm, rfl, nofun⟩
  | cons op ops ih =>
    obtain ⟨hp, ho, he, hok⟩ := perform_amid h (hops op (List.mem_cons_self ..))
    obtain ⟨hlast, hout, hes, hoks⟩ := ih hp fun op hop => hops op (List.mem_cons_of_mem _ hop)
    refine ⟨hlast, ?_, ?_, ?_⟩
    · have hm : messages (op :: ops) = op.message?.toList ++ messages ops := by
        cases hq : op.message? <;> simp [messages, hq]
      rw [run, takenOf_cons, List.append_assoc, hout, ← List.append_assoc, ho, hm,
        List.append_assoc]
    · rw [run, he, hes, List.append_nil]
    · intro a hmem
      rcases List.mem_cons.1 hmem with rfl | hmem
      · exact hok
      · exact hoks a hmem

section start

variable {r : Request} {rest : List Request}

/-- The head of a response that passes leaves as it was written, and its body is awaited then. -/
theorem passes_head {head : Head} (ha : c.lifecycle = .active) (hc : c.cycle = none)
    (hb : c.backlog.waiting = r :: rest) (hp : c.negotiator.LetsPass head r .streamed) :
    c.Passes (.head head) ∧ ∃ cy, (c.write (.head head)).after.Passing cy := by
  have hskip := Negotiator.isSkip_negotiate_iff.2 hp
  have hw := write_of_waiting ha hc hb head
  refine ⟨⟨by rw [hw], ?_, ?_⟩, (c.negotiated r head .streamed).cycle, ?_⟩
  · rw [hw]
    simp only [negotiated, Cycle.announce_of_isSkip hskip]
  · rw [hw]
    exact Negotiator.calls_of_isSkip hskip
  · rw [hw]
    exact ⟨ha, rfl, hskip, Negotiator.not_finished_negotiate⟩

/-- A whole response that passes leaves as it was written, and is complete then. -/
theorem passes_aggregate {a : Aggregate} (ha : c.lifecycle = .active) (hc : c.cycle = none)
    (hb : c.backlog.waiting = r :: rest)
    (hp : c.negotiator.LetsPass a.head r (.aggregate a.payload.length)) :
    c.Passes (.aggregate a) ∧ (c.write (.aggregate a)).after.cycle = none := by
  have hskip := Negotiator.isSkip_negotiate_iff.2 hp
  have hsent := Cycle.sendWhole_of_isSkip (a := a) hskip
  have hw := write_of_whole ha hc hb (congrArg Step.answer hsent)
  have hrelease : ((c.negotiated r a.head (.aggregate a.payload.length)).cycle.sendWhole
      a).after.release = [] := by
    rw [negotiated, hsent]
    exact Cycle.release_of_isSkip hskip
  refine ⟨⟨by rw [hw], by rw [hw], ?_⟩, ?_⟩
  · rw [hw]
    simp only [hrelease, List.append_nil, calls_append]
    rw [negotiated, hsent, Negotiator.calls_of_isSkip hskip]
    rfl
  · rw [hw]
    exact hc

end start

/-- **What passes is untouched**, after any run. Where no other response is open and a request waits,
let a message start a response that a rule forbids to code, or that the decision declines. Then the
message passes. A whole response is complete with it. A streamed one is open from then on, whatever
comes in or is taken in between: each chunk passes, all that was written leaves in order, and the
response is complete with its last chunk and with no other. -/
theorem passes_of_run (d : δ) (ops : List Operation) {m : Message} {head : Head} {body : BodyKind}
    {r : Request} {rest : List Request} (hm : m.start? = some (head, body)) :
    let c := ((new d : Connection δ σ).run ops).last
    c.lifecycle = .active → c.cycle = none → c.backlog.waiting = r :: rest →
    c.negotiator.LetsPass head r body →
    c.Passes m ∧ (body ≠ .streamed → (c.write m).after.cycle = none) ∧
      (body = .streamed → ∀ more, (∀ op ∈ more, op.isAmid = true) →
        let h := (c.write m).after.run more
        h.last.cycle ≠ none ∧ h.events = [] ∧ (∀ a ∈ h.answers, ∃ ms, a = .ok ms) ∧
          h.taken ++ h.last.outbound = c.outbound ++ m :: messages more ∧
          ∀ k, h.last.Passes (.chunk k) ∧
            ((h.last.write (.chunk k)).after.cycle = none ↔ k.last = true)) := by
  intro c ha hc hb hp
  cases m with
  | chunk k => cases hm
  | aggregate a =>
    obtain ⟨rfl, rfl⟩ := Prod.mk.inj (Option.some.inj hm)
    obtain ⟨hpass, hnone⟩ := passes_aggregate ha hc hb hp
    exact ⟨hpass, fun _ => hnone, nofun⟩
  | head head =>
    obtain ⟨rfl, rfl⟩ := Prod.mk.inj (Option.some.inj hm)
    obtain ⟨hpass, cy, hopen⟩ := passes_head ha hc hb hp
    refine ⟨hpass, fun hne => absurd rfl hne, fun _ more hmore => ?_⟩
    intro h
    obtain ⟨hlast, hout, he, hok⟩ := run_amid hopen hmore
    have hsome : h.last.cycle = some cy := hlast.current
    refine ⟨by simp [hsome], he, hok, ?_, fun k => passes_chunk hlast k⟩
    change takenOf h.answers ++ h.last.outbound = _
    rw [hout, hpass.sent, List.append_assoc]
    rfl

section script

open Scripted

/-- A decision that codes every other response. -/
def wavering : Script := ⟨[some ⟨Octets.ofString "x", {}⟩, none], 0⟩

/-- Two requests, the first of them answered by a response that is coded. -/
def codedFirst : List Operation :=
  [.record ⟨.get, none⟩, .record ⟨.get, none⟩, .write (.head {}),
    .write (.chunk { payload := [1], last := true })]

/-- A piece without octets, and what is done beside it. -/
def asides : List Operation :=
  [.drain, .write (.chunk { payload := [] }), .record ⟨.head, none⟩, .read]

/-- Behind a response that was coded one that is declined passes, with a chunk that is empty and
trailer fields that are, too. -/
theorem passes_of_wavering_run :
    let c := ((new wavering : Connection Script Machine).run codedFirst).last
    let h := (c.write (.head {})).after.run asides
    let k : Chunk := { payload := [2], last := true, trailers := some [] }
    c.lifecycle = .active ∧ c.cycle = none ∧ c.backlog.waiting = [⟨.get, none⟩] ∧
      c.negotiator.LetsPass {} ⟨.get, none⟩ .streamed ∧ c.outbound.length = 3 ∧
      c.Passes (.head {}) ∧ (∀ op ∈ asides, op.isAmid = true) ∧
      h.taken ++ h.last.outbound = c.outbound ++ [.head {}, .chunk { payload := [] }] ∧
      h.last.Passes (.chunk k) ∧ (h.last.write (.chunk k)).after.cycle = none := by
  intro c h k
  have ha : c.lifecycle = .active := by decide
  have hc : c.cycle = none := by decide
  have hb : c.backlog.waiting = [⟨.get, none⟩] := by decide
  have hp : c.negotiator.LetsPass {} ⟨.get, none⟩ .streamed := .inr (by decide)
  have hamid : ∀ op ∈ asides, op.isAmid = true := by decide
  obtain ⟨hpass, -, hopen⟩ := passes_of_run wavering codedFirst (m := .head {}) rfl ha hc hb hp
  obtain ⟨-, -, -, hout, hchunk⟩ := hopen rfl asides hamid
  obtain ⟨hk, hlast⟩ := hchunk k
  exact ⟨ha, hc, hb, hp, by decide, hpass, hamid, hout, hk, hlast.2 rfl⟩

end script

end Connection

end ContentCoding
