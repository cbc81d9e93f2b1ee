import ContentCoding.Proofs.Pairing

/-!
# Decisions are consulted by the rules

A negotiation goes by the first rule of HTTP that forbids coding, and asks its decision where there
is none. What is asked is seen by a decision that keeps a record of it.

* `SkipReason.applies_iff`: what each rule says of the messages themselves.
* `skipReason?_eq_some_iff_isFirst`: the reason given is that of the first rule which holds.
* `skipReason?_of_filled`, `skipReason?_of_empty`: how whole bodies are told from those in chunks.
* `Negotiator.negotiate_recording`: a record of what is asked changes nothing else.
* `Negotiator.negotiate_agrees`: **what a negotiation comes to, and what it asks.**
-/

namespace ContentCoding

variable {head : Head} {request : Request} {body : BodyKind} {reason : SkipReason}

namespace SkipReason

/-- **What a rule says**: a response to HEAD, a tunnel that is established, a status that has no
body, a body that is coded already, one that is whole and empty, a version without chunks. -/
def Holds (head : Head) (request : Request) (body : BodyKind) : SkipReason → Prop
  | .headRequest => request.method.name = "HEAD"
  | .connectEstablished =>
    request.method.name = "CONNECT" ∧ 200 ≤ head.status.code ∧ head.status.code ≤ 299
  | .bodylessStatus =>
    100 ≤ head.status.code ∧ head.status.code ≤ 199 ∨ head.status.code = 204 ∨
      head.status.code = 304
  | .alreadyEncoded => head.fields.values .contentEncoding ≠ []
  | .emptyBody => body = .aggregate 0
  | .legacyVersion => head.version = .http09 ∨ head.version = .http10
  | .declined => False

theorem applies_iff : reason.applies head request body = true ↔ reason.Holds head request body := by
  have hmethod {m n : Method} : m = n ↔ m.name = n.name := by
    cases m
    cases n
    simp
  have hstatus {s t : Status} : s = t ↔ s.code = t.code :=
    ⟨congrArg Status.code, Status.eq_of_code⟩
  cases reason with
  | headRequest => simp [applies, Holds, Request.isHead, hmethod, Method.head]
  | connectEstablished =>
    simp only [applies, Holds, Request.isConnect, Status.isSuccess, Bool.and_eq_true, beq_iff_eq,
      hmethod, Method.connect]
    refine and_congr_right fun _ => ?_
    omega
  | bodylessStatus =>
    simp only [applies, Holds, Status.isBodyless, Status.isInformational, Bool.or_eq_true,
      beq_iff_eq, hstatus, Status.noContent, Status.notModified]
    omega
  | alreadyEncoded => exact Fields.has_iff
  | emptyBody => simp [applies, Holds]
  | legacyVersion => cases hv : head.version <;> simp [applies, Holds, Version.isLegacy, hv]
  | declined => simp [applies, Holds]

/-- **The first rule that holds**, in the order in which they are tried. -/
def IsFirst (head : Head) (request : Request) (body : BodyKind) (reason : SkipReason) : Prop :=
  ∃ before after,
    [.headRequest, .connectEstablished, .bodylessStatus, .alreadyEncoded, .emptyBody,
      .legacyVersion] = before ++ reason :: after ∧
    reason.Holds head request body ∧ ∀ r ∈ before, ¬ r.Holds head request body

end SkipReason

/-- **A response is skipped by the first rule that holds.** -/
theorem skipReason?_eq_some_iff_isFirst :
    skipReason? head request body = some reason ↔ reason.IsFirst head request body := by
  rw [skipReason?_eq_some_iff, SkipReason.IsFirst, SkipReason.applies_iff]
  constructor
  · rintro ⟨hholds, before, after, horder, hno⟩
    refine ⟨before, after, horder, hholds, fun r hr h => ?_⟩
    cases (hno r hr).symm.trans (SkipReason.applies_iff.2 h)
  · rintro ⟨before, after, horder, hholds, hno⟩
    refine ⟨hholds, before, after, horder, fun r hr => ?_⟩
    rw [← Bool.not_eq_true, SkipReason.applies_iff]
    exact hno r hr

/-- **A response is negotiated where no rule holds.** -/
theorem skipReason?_eq_none_iff_holds :
    skipReason? head request body = none ↔
      ∀ reason : SkipReason, ¬ reason.Holds head request body := by
  simp only [skipReason?_eq_none_iff, ← SkipReason.applies_iff, Bool.not_eq_true]

/-- The rules that are tried before that of empty bodies. -/
def SkipReason.early : List SkipReason :=
  [.headRequest, .connectEstablished, .bodylessStatus, .alreadyEncoded]

/-- **None of the early rules asks how a body is delivered.** -/
theorem skipReason?_eq_early_or :
    skipReason? head request body =
      (SkipReason.early.find? (SkipReason.applies head request .streamed)).or
        ([.emptyBody, .legacyVersion].find? (SkipReason.applies head request body)) := by
  rw [skipReason?,
    show SkipReason.order = SkipReason.early ++ [.emptyBody, .legacyVersion] from rfl,
    List.find?_append]
  rfl

/-- **A body that is not empty** is judged like one in chunks. -/
theorem skipReason?_of_filled (size : Nat) :
    skipReason? head request (.aggregate (size + 1)) = skipReason? head request .streamed := by
  rw [skipReason?_eq_early_or, skipReason?_eq_early_or]
  rfl

/-- **A body that is empty** is skipped as such, unless it is skipped by an earlier rule. -/
theorem skipReason?_of_empty :
    skipReason? head request (.aggregate 0) =
      if skipReason? head request .streamed = none ∨
        skipReason? head request .streamed = some .legacyVersion then some .emptyBody
      else skipReason? head request .streamed := by
  rw [skipReason?_eq_early_or, skipReason?_eq_early_or]
  cases hfound : SkipReason.early.find? (SkipReason.applies head request .streamed) with
  | some r =>
    have hr : r ≠ .legacyVersion := by
      rintro rfl
      exact absurd (List.mem_of_find?_eq_some hfound) (by decide)
    simp [hr]
  | none => cases hv : head.version.isLegacy <;> simp [SkipReason.applies, hv]

/-- **A decision that keeps a record** of what it is asked, and decides like another one. -/
structure Recorder (δ : Type) where
  decision : δ
  asked : List (Head × Option String) := []

variable {δ σ : Type} [Decision δ σ]

instance : Decision (Recorder δ) σ where
  consult r head accept :=
    let answer := Decision.consult r.decision head accept
    (answer.1, ⟨answer.2, r.asked ++ [(head, accept)]⟩)

namespace Negotiator

variable {n : Negotiator δ}

/-- The negotiator with a record kept of what its decision is asked. -/
def recording (n : Negotiator δ) : Negotiator (Recorder δ) := ⟨⟨n.decision, []⟩, n.opened⟩

/-- **Keeping a record changes nothing** but that the record is kept. -/
theorem negotiate_recording :
    n.recording.negotiate head request body =
      { cycle := (n.negotiate head request body).cycle
        after := ⟨⟨(n.negotiate head request body).after.decision,
          if skipReason? head request body = none then [(head, request.accept)] else []⟩,
          (n.negotiate head request body).after.opened⟩
        events := (n.negotiate head request body).events } := by
  cases hs : skipReason? head request body with
  | some reason =>
    rw [negotiate_of_skipReason hs, negotiate_of_skipReason hs]
    rfl
  | none =>
    have hrecord : Decision.consult n.recording.decision head request.accept =
        ((Decision.consult n.decision head request.accept).1,
          ⟨(Decision.consult n.decision head request.accept).2, [(head, request.accept)]⟩) := rfl
    rcases hc : Decision.consult n.decision head request.accept with ⟨_ | e, d⟩
    · rw [hc] at hrecord
      rw [negotiate_of_declined hs hc, negotiate_of_declined hs hrecord]
      rfl
    · rw [hc] at hrecord
      rw [negotiate_of_granted hs hc, negotiate_of_granted hs hrecord]
      rfl

/-- **A negotiation by the rules.** The decision is asked once where none holds, about the head and
the Accept-Encoding as they are, and is left alone where one does. What is skipped is so by the
rule, or because the decision declines; what is coded is so by what the decision returns. -/
structure ByRules (n : Negotiator δ) (head : Head) (request : Request) (body : BodyKind) :
    Prop where
  asked : (n.recording.negotiate head request body).after.decision.asked =
    if skipReason? head request body = none then [(head, request.accept)] else []
  recorded : (n.recording.negotiate head request body).cycle = (n.negotiate head request body).cycle
  logged : consultations (n.negotiate head request body).events =
    if skipReason? head request body = none then [(head, request.accept)] else []
  decision : (n.negotiate head request body).after.decision =
    if skipReason? head request body = none then
      (Decision.consult n.decision head request.accept).2
    else n.decision
  skipped : ∀ reason, (n.negotiate head request body).cycle.treatment = .skipped reason ↔
    skipReason? head request body = some reason ∨
      skipReason? head request body = none ∧
        (Decision.consult n.decision head request.accept).1 = none ∧ reason = .declined
  encoded : ∀ label lease, (n.negotiate head request body).cycle.treatment = .encoded label lease ↔
    skipReason? head request body = none ∧
      ∃ e, (Decision.consult n.decision head request.accept).1 = some e ∧
        label = e.label ∧ lease = ⟨n.opened, e.compressor, false⟩
  representation : (n.negotiate head request body).cycle.representation = body.representation
  unfinished : (n.negotiate head request body).cycle.finished = false
  unclosed : (n.negotiate head request body).cycle.isClosed = false

/-- **Negotiations go by the rules.** -/
theorem byRules (n : Negotiator δ) (head : Head) (request : Request) (body : BodyKind) :
    n.ByRules head request body := by
  refine ⟨by rw [negotiate_recording], by rw [negotiate_recording], consultations_negotiate, ?_,
    fun reason => ?_, fun label lease => ?_, ?_, not_finished_negotiate, not_isClosed_negotiate⟩
  -- a rule holds, or the decision declines, or it grants an encoding
  all_goals
    cases hs : skipReason? head request body with
    | some reason => simp [negotiate_of_skipReason hs]
    | none =>
      rcases hc : Decision.consult n.decision head request.accept with ⟨_ | e, d⟩
      · simp [negotiate_of_declined hs hc, eq_comm]
      · simp [negotiate_of_granted hs hc, eq_comm]

/-- **Negotiation agrees with the rules on every input.** What it comes to and what it asks are
settled by the first rule that holds, of six that are tried in this order. A whole body is judged
like one in chunks if it is not empty. If it is, the two are told apart only where the one in chunks
breaks no rule, or that of old versions only. -/
theorem negotiate_agrees (n : Negotiator δ) (head : Head) (request : Request) (body : BodyKind) :
    n.ByRules head request body ∧
      (∀ reason, skipReason? head request body = some reason ↔
        reason.IsFirst head request body) ∧
      (skipReason? head request body = none ↔
        ∀ reason : SkipReason, ¬ reason.Holds head request body) ∧
      (∀ size, skipReason? head request (.aggregate (size + 1)) =
        skipReason? head request .streamed) ∧
      skipReason? head request (.aggregate 0) =
        if skipReason? head request .streamed = none ∨
          skipReason? head request .streamed = some .legacyVersion then some .emptyBody
        else skipReason? head request .streamed :=
  ⟨n.byRules head request body, fun _ => skipReason?_eq_some_iff_isFirst,
    skipReason?_eq_none_iff_holds, skipReason?_of_filled, skipReason?_of_empty⟩

end Negotiator

end ContentCoding
