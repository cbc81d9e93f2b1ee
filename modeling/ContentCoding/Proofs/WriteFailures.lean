import ContentCoding.Proofs.Aftermath
import ContentCoding.Proofs.BodyFailures

/-!
# How a write fails

A message with a body that is coded comes to up to three calls of its compressor: the body is taken,
and with the end of the body the coded form is finished and the compressor closed. The first of them
that fails is what the write reports. The compressor is closed once all the same, somewhere behind
that failure, and what this close answers is nowhere heard of.

* `Compressor.FirstFailure`: the first call that fails.
* `Connection.Feeds`: which compressor a message is for.
* `answer_write_of_feeds`: a write fails with the first failure, and only then.
* `write_reports_first`: **after any run a write reports its first failure**, and no clean-up
  failure takes its place then or later.
-/

namespace ContentCoding

namespace Compressor

variable {σ : Type} [Compressor σ] {s t : σ} {piece out : Octets} {last : Bool} {f : Fault}

/-- **The first call that fails** when a compressor is given a piece, which may be the last one,
with the fault that this is. A close that comes only after a failure is none of these calls. -/
inductive FirstFailure (s : σ) (piece : Octets) : Bool → Fault → Prop
  /-- The piece cannot be coded. -/
  | compress {last : Bool} {cause : Cause} {t : σ} :
      Compressor.compress s piece = (.error cause, t) →
      FirstFailure s piece last (.compression cause)
  /-- The last piece was taken, and the coded form cannot be finished. -/
  | finish {out : Octets} {cause : Cause} {t u : σ} :
      Compressor.compress s piece = (.ok out, t) → Compressor.isFinished t = false →
      Compressor.finish t = (.error cause, u) → FirstFailure s piece true (.compression cause)
  /-- The coded form is finished, and the compressor cannot be closed. -/
  | close {out : Octets} {rest : Option Octets} {cause : Cause} {t u v : σ} :
      Compressor.compress s piece = (.ok out, t) → Finishes t rest u →
      Compressor.close u = (.error cause, v) → FirstFailure s piece true (.closing cause)

end Compressor

open Compressor (FirstFailure finishes_cases)

namespace Cycle

variable {σ : Type} [Compressor σ] {s t : σ} {piece out : Octets} {last : Bool} {f : Fault}

/-- **What a cycle answers to a piece**, which may be the last one. -/
def taking (cy : Cycle σ) (piece : Octets) (last : Bool) : Except Fault Octets :=
  if last then (cy.compressLast piece).answer else (cy.compress piece).answer

/-- The end follows a last piece that was taken. -/
theorem answer_compressLast_of_taken (label : Octets) (id : Nat)
    (h : Compressor.compress s piece = (.ok out, t)) :
    ((coding label id s).compressLast piece).answer =
      (coding label id t).finish.answer.map (out ++ ·) := by
  rw [compressLast, compress_coding label id h]
  rfl

/-- The first failure is answered. -/
theorem taking_of_firstFailure (label : Octets) (id : Nat) (h : FirstFailure s piece last f) :
    (coding label id s).taking piece last = .error f := by
  cases h with
  | @compress last cause t hc =>
    cases last with
    | false => rw [taking, if_neg Bool.false_ne_true, compress_coding label id hc]; rfl
    | true => rw [taking, if_pos rfl, compressLast, compress_coding label id hc]; rfl
  | finish hc hi hf =>
    rw [taking, if_pos rfl, answer_compressLast_of_taken label id hc,
      answer_finish_of_error label id hi hf]
    rfl
  | close hc hf hclose =>
    rw [taking, if_pos rfl, answer_compressLast_of_taken label id hc,
      answer_finish_of_unclosed label id hf hclose]
    rfl

/-- Where no call fails, there is an answer. -/
theorem taking_cases (label : Octets) (id : Nat) (s : σ) (piece : Octets) (last : Bool) :
    (∃ f, FirstFailure s piece last f) ∨
      ∃ out, (coding label id s).taking piece last = .ok out := by
  cases hc : Compressor.compress s piece with
  | mk answer t =>
    cases answer with
    | error cause => exact .inl ⟨_, .compress hc⟩
    | ok out =>
      cases last with
      | false =>
        rw [taking, if_neg Bool.false_ne_true, compress_coding label id hc]
        exact .inr ⟨out, rfl⟩
      | true =>
        rcases finishes_cases t with ⟨rest, u, hfin⟩ | ⟨hi, cause, u, hf⟩
        · cases hclose : Compressor.close u with
          | mk answer v =>
            cases answer with
            | error cause => exact .inl ⟨_, .close hc hfin hclose⟩
            | ok _ =>
              rw [taking, if_pos rfl, answer_compressLast_of_taken label id hc,
                answer_finish_coding hfin (congrArg Prod.fst hclose)]
              exact .inr ⟨_, rfl⟩
        · exact .inl ⟨_, .finish hc hi hf⟩

/-- **A piece fails with the first failure, and only then.** -/
theorem taking_eq_error_iff (label : Octets) (id : Nat) (s : σ) (piece : Octets) (last : Bool) :
    (coding label id s).taking piece last = .error f ↔ FirstFailure s piece last f := by
  refine ⟨fun h => ?_, taking_of_firstFailure label id⟩
  rcases taking_cases label id s piece last with ⟨f', hf⟩ | ⟨out, hout⟩
  · rwa [Except.error.inj (h.symm.trans (taking_of_firstFailure label id hf))]
  · cases h.symm.trans hout

/-- A chunk fails with the first failure, however its body is delivered. -/
theorem answer_send_eq_error_iff (label : Octets) (id : Nat) (s : σ) (rep : Representation)
    (k : Chunk) :
    (send ⟨.encoded label ⟨id, s, false⟩, rep, false⟩ k).answer = .error f ↔
      FirstFailure s k.payload k.last f := by
  rw [← taking_eq_error_iff label id]
  cases hk : k.last with
  | false =>
    rw [taking, if_neg Bool.false_ne_true, send_piece_of_coded rfl hk, Step.map, map_eq_error_iff]
    rfl
  | true =>
    rw [taking, if_pos rfl, answer_send_last hk label _ rep .streamed false, map_eq_error_iff]
    rfl

/-- A whole body fails like a streamed one that is its last piece. -/
theorem answer_sendWhole_eq_error_iff (label : Octets) (id : Nat) (s : σ) (rep : Representation)
    (a : Aggregate) :
    (sendWhole ⟨.encoded label ⟨id, s, false⟩, rep, false⟩ a).answer = .error f ↔
      FirstFailure s a.payload true f := by
  rw [← taking_eq_error_iff label id, taking, if_pos rfl, answer_sendWhole, map_eq_error_iff,
    answer_compressLast _ rep .streamed]
  rfl

end Cycle

namespace Connection

variable {δ σ : Type} [Decision δ σ] [Compressor σ] {c : Connection δ σ} {m : Message}
  {l : Lease σ} {es : List Event} {f : Fault}

/-- **A message feeds a compressor**: it is a chunk of the streamed response that this compressor
codes, or a whole response that it is opened for. -/
inductive Feeds (c : Connection δ σ) : Message → Lease σ → Prop
  | chunk {k : Chunk} {cy : Cycle σ} {label : Octets} {l : Lease σ} :
      c.cycle = some cy → cy.treatment = .encoded label l → Feeds c (.chunk k) l
  | aggregate {a : Aggregate} {label : Octets} {l : Lease σ} :
      c.Codes (.aggregate a) label l → Feeds c (.aggregate a) l

/-- **A write fails with the first failure, and only then.** -/
theorem answer_write_of_feeds (ho : c.InOrder) (h : c.Feeds m l) :
    (c.write m).answer = .error f ↔
      FirstFailure l.compressor m.payload m.completes f := by
  cases h with
  | @chunk k cy label l hc ht =>
    obtain ⟨treatment, rep, fin⟩ := cy
    obtain ⟨id, s, closed⟩ := l
    obtain rfl : treatment = _ := ht
    obtain rfl : fin = false := ho.unfinished _ hc
    obtain rfl : closed = false := ho.unclosed _ hc
    have ha : c.lifecycle = .active := ho.active (by rw [hc]; nofun)
    rw [answer_write_of_chunk ha hc, map_eq_error_iff]
    exact Cycle.answer_send_eq_error_iff label id s rep k
  | @aggregate a label l h =>
    obtain ⟨id, s, closed⟩ := l
    obtain rfl : closed = false := h.unclosed
    obtain ⟨ha, hc, _, _, r, rest, hm, hb, ht⟩ := h
    obtain ⟨rfl, rfl⟩ := Prod.mk.inj (Option.some.inj hm)
    obtain ⟨-, -, hcy, -⟩ := Negotiator.negotiate_of_encoded ht
    rw [(answer_write_of_whole (a := a) ha hc hb).1, map_eq_error_iff, negotiated, hcy]
    exact Cycle.answer_sendWhole_eq_error_iff label id s .aggregate a

/-- **A write that fails closes its compressor**, which was not closed before. -/
theorem closings_of_feeds (ho : c.InOrder) (hb : c.InBalance es) (h : c.Feeds m l)
    (ha : c.lifecycle = .active) (hf : (c.write m).answer = .error f) :
    closings l.id es = 0 ∧ closings l.id (c.write m).events = 1 := by
  obtain ⟨hone, hopen⟩ := closings_of_write ho hb ha hf
  cases h with
  | chunk hc ht => exact hopen _ _ _ hc ht
  | @aggregate a label l h =>
    have hl : l.closed = false := h.unclosed
    obtain ⟨-, hc, _, _, r, rest, hm, hwait, ht⟩ := h
    obtain ⟨rfl, rfl⟩ := Prod.mk.inj (Option.some.inj hm)
    obtain ⟨-, hev⟩ := answer_write_of_whole (a := a) ha hc hwait
    -- the compressor is opened in this very write
    let n := c.negotiated r a.head (.aggregate a.payload.length)
    have hcustody : n.cycle.custody = .working l.id := by simp [n, Cycle.custody, ht, hl]
    have hwork : Accounts n.after.opened n.cycle.custody (es ++ n.events) :=
      Negotiator.accounts_negotiate ((inBalance_of_none hc).1 hb) a.head r _
    rw [hcustody] at hwork
    obtain ⟨hopened, hzero⟩ := closings_eq_zero hwork
    have hes : closings l.id es = 0 := by
      rw [closings_append] at hzero
      omega
    have hmem : .opened l.id ∈ es ++ (c.write (.aggregate a)).events := by
      rw [hev, ← List.append_assoc]
      exact List.mem_append_left _ hopened
    have htotal := hone l.id hmem
    rw [closings_append, hes, Nat.zero_add] at htotal
    exact ⟨hes, htotal⟩

/-- After a fault nothing is closed, and no failure to close is reported. -/
theorem run_of_fault (h : c.Silent) (id : Nat) (more : List Operation) :
    let k := c.run more
    closings id (k.events ++ k.last.release) = 0 ∧
      ∀ cause, .error (.closing cause) ∉ k.answers := by
  intro k
  obtain ⟨hans, hlast, hev⟩ := run_of_silent h more
  constructor
  · have hrelease : k.last.release = [] := by rw [release, releaseCycle, hlast.idle]
    rw [hrelease, List.append_nil, show k.events = _ from hev, announcement]
    split <;> rfl
  · intro cause hmem
    rw [show k.answers = _ from hans] at hmem
    obtain ⟨op, -, hop⟩ := List.mem_map.1 hmem
    cases op <;> cases hop

/-- **A write reports its first failure**, after any run and whatever its compressor does. Where a
chunk is not the last one it fails if its piece cannot be coded, and only then; a last chunk and a
whole response fail, too, if the coded form cannot be finished, or else if the compressor cannot be
closed. A write that fails closes the compressor, whatever that close answers, and it is the only
close that this compressor ever sees; no later operation reports a failure to close. -/
theorem write_reports_first (d : δ) (ops : List Operation) :
    let h := (new d : Connection δ σ).run ops
    ∀ m l, h.last.Feeds m l →
      let w := h.last.write m
      (∀ f, w.answer = .error f ↔ FirstFailure l.compressor m.payload m.completes f) ∧
        ∀ f, w.answer = .error f →
          closings l.id h.events = 0 ∧ closings l.id w.events = 1 ∧
            ∀ more, let k := w.after.run more
              closings l.id (k.events ++ k.last.release) = 0 ∧
                ∀ cause, .error (.closing cause) ∉ k.answers := by
  intro h m l hfeeds w
  have ho : h.last.InOrder := inOrder_run (inOrder_new d) ops
  have hb : h.last.InBalance h.events := inBalance_run (inOrder_new d) (inBalance_new d) ops
  have ha : h.last.lifecycle = .active := by
    cases hfeeds with
    | chunk hc => exact ho.active (by rw [hc]; nofun)
    | aggregate hcodes => exact hcodes.active
  refine ⟨fun f => answer_write_of_feeds ho hfeeds, fun f hf => ?_⟩
  obtain ⟨hbefore, hnow⟩ := closings_of_feeds ho hb hfeeds ha hf
  exact ⟨hbefore, hnow, run_of_fault (silent_of_write ha hf).1 l.id⟩

section script

open Scripted

/-- What a compressor is told that fails on its second piece, and cannot be closed. -/
def doubtful : Behaviour := { failsAt := some 1, failsToClose := true }

/-- The last chunk cannot be coded, and the compressor cannot be closed behind it. The write reports
the first of the two, and nothing ever reports the second. -/
theorem write_reports_first_of_doubtful_run :
    let h := (new ⟨[some ⟨Octets.ofString "x", doubtful⟩], 0⟩ : Connection Script Machine).run
      opening
    let k : Chunk := { payload := [2], last := true }
    let l : Lease Machine := ⟨0, { behaviour := doubtful, calls := 1 }, false⟩
    let w := h.last.write (.chunk k)
    h.last.Feeds (.chunk k) l ∧ w.answer = .error (.compression Machine.compressFailed) ∧
      FirstFailure l.compressor k.payload k.last (.compression Machine.compressFailed) ∧
      .closed 0 (.error Machine.closeFailed) ∈ w.events ∧ closings 0 w.events = 1 ∧
      ∀ more cause, .error (.closing cause) ∉ (w.after.run more).answers := by
  intro h k l w
  have hc : h.last.cycle = some ⟨.encoded (Octets.ofString "x") l, .streamed, false⟩ := by decide
  have hfeeds : h.last.Feeds (.chunk k) l := .chunk hc rfl
  have hf : w.answer = .error (.compression Machine.compressFailed) := by decide
  obtain ⟨hfirst, hfails⟩ := write_reports_first _ opening _ l hfeeds
  obtain ⟨-, hnow, hlater⟩ := hfails _ hf
  exact ⟨hfeeds, hf, (hfirst _).1 hf, by decide, hnow, fun more => (hlater more).2⟩

end script

end Connection

end ContentCoding
