import ContentCoding.Proofs.Lifetimes
import ContentCoding.Scripted

/-!
# Responses answer requests in order

A run is compared with the requests that were recorded in it. A request is served by the final
response that is negotiated for it; an interim response is negotiated for the same request, and
leaves it waiting.

* `consultations_of_calls`: coding a body consults nothing.
* `matches_run`: the requests that wait are those recorded, less as many as were served.
* `paired_of_run`: **every response is negotiated for the oldest request that was not served**,
  with one consultation where no rule forbids coding, and none anywhere else.
-/

namespace ContentCoding

/-- What a decision was consulted about. -/
def consultations (es : List Event) : List (Head × Option String) :=
  es.filterMap fun
    | .consulted head accept => some (head, accept)
    | _ => none

theorem consultations_append (es fs : List Event) :
    consultations (es ++ fs) = consultations es ++ consultations fs := by
  unfold consultations
  exact List.filterMap_append

/-- Calls of a compressor consult nothing. -/
theorem consultations_of_calls {es : List Event} (h : calls es = es) : consultations es = [] := by
  rw [← h]
  refine List.filterMap_eq_nil_iff.2 fun e he => ?_
  have hcall : e.compressor?.isSome = true := (List.mem_filter.1 he).2
  cases e <;> first | rfl | cases hcall

/-- Whether a fault comes from coding a response, which was matched and negotiated by then. -/
def Fault.isCoding : Fault → Bool
  | .compression _ | .closing _ => true
  | .protocol _ | .terminated => false

/-- Whether the answer of a write comes from behind the negotiation. -/
def isNegotiated {α : Type} : Except Fault α → Bool
  | .ok _ => true
  | .error f => f.isCoding

theorem isNegotiated_map {α β : Type} (f : α → β) (answer : Except Fault α) :
    isNegotiated (answer.map f) = isNegotiated answer := by
  cases answer <;> rfl

theorem isNegotiated_compression {α : Type} (answer : Except Cause α) :
    isNegotiated (answer.mapError .compression) = true := by
  cases answer <;> rfl

theorem isNegotiated_closing {α : Type} (answer : Except Cause α) :
    isNegotiated (answer.mapError .closing) = true := by
  cases answer <;> rfl

namespace Operation

/-- The request that an operation records. -/
def request? : Operation → Option Request
  | .record r => some r
  | _ => none

/-- **Whether an operation served a request**, by its answer: it started a response that is final,
and that one was negotiated. -/
def serves (op : Operation) (answer : Except Fault (List Message)) : Bool :=
  match op.start? with
  | none => false
  | some (head, _) => !head.status.isInterim && isNegotiated answer

end Operation

/-- **The requests recorded** by these operations, in order. -/
def recorded (ops : List Operation) : List Request := ops.filterMap Operation.request?

/-- **How many requests were served** by these operations, with these answers. -/
def served : List Operation → List (Except Fault (List Message)) → Nat
  | op :: ops, answer :: answers => (op.serves answer).toNat + served ops answers
  | _, _ => 0

section coding

variable {σ : Type} [Compressor σ]

theorem consultations_release (cy : Cycle σ) : consultations cy.release = [] :=
  consultations_of_calls cy.calls_close

/-- A chunk consults nothing. -/
theorem consultations_send (cy : Cycle σ) (k : Chunk) :
    consultations (cy.send k).events = [] :=
  consultations_of_calls (cy.calls_send k)

/-- A whole response consults nothing once it is negotiated. -/
theorem consultations_sendWhole (cy : Cycle σ) (a : Aggregate) :
    consultations (cy.sendWhole a).events = [] :=
  consultations_of_calls (cy.calls_sendWhole a)

/-- Coding fails with faults of coding only. -/
theorem isNegotiated_compress (cy : Cycle σ) (input : Octets) :
    isNegotiated (cy.compress input).answer = true := by
  unfold Cycle.compress
  split
  · rfl
  · exact isNegotiated_compression _

theorem isNegotiated_finish (cy : Cycle σ) : isNegotiated cy.finish.answer = true := by
  unfold Cycle.finish
  split
  · rfl
  · rename_i label l _
    have hf : isNegotiated l.finish.answer = true := by
      unfold Lease.finish
      split
      · rfl
      · exact isNegotiated_compression _
    have hc : isNegotiated l.finish.after.close.answer = true := by
      unfold Lease.close
      split
      · rfl
      · exact isNegotiated_closing _
    -- the first failure is the one reported, and both are failures of coding
    change isNegotiated (l.finish.answer.bind fun out => _) = true
    cases hfa : l.finish.answer with
    | error f => rwa [hfa] at hf
    | ok out =>
      change isNegotiated (l.finish.after.close.answer.map fun _ => out) = true
      rwa [isNegotiated_map]

theorem isNegotiated_compressLast (cy : Cycle σ) (input : Octets) :
    isNegotiated (cy.compressLast input).answer = true := by
  have hp := isNegotiated_compress cy input
  rcases Cycle.compressLast_cases cy input with ⟨f, ha, hl⟩ | ⟨out, -, hl⟩
  · rw [ha] at hp
    rw [hl]
    exact hp
  · rw [hl, isNegotiated_map]
    exact isNegotiated_finish _

theorem isNegotiated_send (cy : Cycle σ) (k : Chunk) :
    isNegotiated (cy.send k).answer = true := by
  unfold Cycle.send
  split
  · rfl
  · split
    · rw [Step.map, isNegotiated_map]
      exact isNegotiated_compressLast cy k.payload
    · rw [Step.map, isNegotiated_map]
      exact isNegotiated_compress cy k.payload

theorem isNegotiated_sendWhole (cy : Cycle σ) (a : Aggregate) :
    isNegotiated (cy.sendWhole a).answer = true := by
  unfold Cycle.sendWhole
  split
  · rfl
  · rw [Step.map, isNegotiated_map]
    exact isNegotiated_compressLast cy a.payload

end coding

section negotiation

variable {δ σ : Type} [Decision δ σ] {n : Negotiator δ} {head : Head} {r : Request}
  {body : BodyKind}

/-- **A negotiation consults once**, and only where no rule forbids coding. -/
theorem consultations_negotiate :
    consultations (n.negotiate head r body).events =
      if skipReason? head r body = none then [(head, r.accept)] else [] := by
  unfold Negotiator.negotiate
  split
  · rename_i reason hr
    rw [if_neg (by simp [hr])]
    rfl
  · rename_i hr
    rw [if_pos hr]
    split <;> rfl

/-- An interim response is never coded. -/
theorem isSkip_of_isInterim (hi : head.status.isInterim = true) :
    (n.negotiate head r body).cycle.isSkip = true := by
  have hb : head.status.isBodyless = true := (Status.class_cases _).1 hi
  cases hr : skipReason? head r body with
  | some reason =>
    rw [Negotiator.negotiate_of_skipReason hr]
    rfl
  | none =>
    have := skipReason?_eq_none_iff.1 hr .bodylessStatus
    rw [SkipReason.applies, hb] at this
    cases this

end negotiation

namespace Connection

variable {δ σ : Type} [Decision δ σ] [Compressor σ] {c : Connection δ σ}

/-- **A response that was refused**: it violates the protocol, serves no request, and nothing was
consulted about it. -/
structure Refused (c : Connection δ σ) (s : Step (Connection δ σ) Unit) : Prop where
  violates : ∃ v, s.answer = .error (.protocol v)
  backlog : s.after.backlog = c.backlog
  negotiator : s.after.negotiator = c.negotiator
  consulted : consultations s.events = []

/-- **A response that was negotiated for a request.** It is sent as the negotiation has it, and
serves the request unless it is interim. -/
structure Negotiates (c : Connection δ σ) (r : Request) (head : Head) (body : BodyKind)
    (m : Message) (s : Step (Connection δ σ) Unit) : Prop where
  reached : isNegotiated s.answer = true
  consulted : consultations s.events =
    if skipReason? head r body = none then [(head, r.accept)] else []
  negotiator : s.after.negotiator = (c.negotiator.negotiate head r body).after
  backlog : s.after.backlog.waiting =
    if head.status.isInterim then c.backlog.waiting else c.backlog.waiting.tail
  interim : head.status.isInterim = true → (c.negotiator.negotiate head r body).cycle.isSkip = true
  streamed : ∀ h, m = .head h →
    s.after.cycle = some (c.negotiator.negotiate head r body).cycle ∧
      s.after.outbound = c.outbound ++
        [.head ((c.negotiator.negotiate head r body).cycle.announce .chunked h)]
  whole : ∀ a, m = .aggregate a →
    s.answer = ((c.negotiator.negotiate head r body).cycle.sendWhole a).answer.map (fun _ => ()) ∧
      ∀ ms, ((c.negotiator.negotiate head r body).cycle.sendWhole a).answer = .ok ms →
        s.after.outbound = c.outbound ++ ms

/-- **The requests that wait** are those recorded, but for so many of the first. -/
def Matches (c : Connection δ σ) (rs : List Request) (n : Nat) : Prop :=
  n ≤ rs.length ∧ c.backlog.waiting = rs.drop n

variable {rs : List Request} {n : Nat}

/-- A final response serves the first of the requests that wait. -/
theorem drop_matched {b : Backlog} {r : Request} {rest : List Request} (hn : n ≤ rs.length)
    (hb : b.waiting = rs.drop n) (hr : b.waiting = r :: rest) (head : Head) :
    n + (!head.status.isInterim).toNat ≤ rs.length ∧
      (b.matched head).waiting = rs.drop (n + (!head.status.isInterim).toNat) := by
  unfold Backlog.matched
  cases head.status.isInterim with
  | true => exact ⟨hn, hb⟩
  | false =>
    -- a request waits, so not all of them were served
    have hlt : n < rs.length := by
      rcases Nat.lt_or_ge n rs.length with hlt | hge
      · exact hlt
      · rw [hb, List.drop_eq_nil_of_le hge] at hr
        cases hr
    refine ⟨hlt, ?_⟩
    simp [hb]

theorem matches_write (h : c.Matches rs n) (m : Message) :
    (c.write m).after.Matches rs
      (n + ((Operation.write m).serves (c.perform (.write m)).answer).toNat) := by
  obtain ⟨hn, hb⟩ := h
  have hw := c.wrote m
  unfold perform Operation.serves Operation.start?
  simp only [Step.map, isNegotiated_map]
  generalize c.write m = s at hw
  cases hw with
  | terminated | overlaps | unmatched =>
    -- a fault of the protocol serves nothing, whatever was written
    cases m.start? <;>
      simpa [Matches, Step.fail, isNegotiated, Fault.isCoding, abandon] using ⟨hn, hb⟩
  | headless | chunk | chunkFailed => exact ⟨hn, hb⟩
  | @head hd r rest nn _ _ hr _ =>
    have := drop_matched hn hb hr hd
    simpa [Matches, Message.start?, isNegotiated, started] using this
  | @aggregate a r rest nn ms _ _ hr _ _ =>
    have := drop_matched hn hb hr a.head
    simpa [Matches, Message.start?, isNegotiated, started] using this
  | @aggregateFailed a r rest nn f _ _ hr _ hf =>
    -- coding failed behind the negotiation, which has served the request by then
    have := drop_matched hn hb hr a.head
    have hk := isNegotiated_sendWhole nn.cycle a
    rw [hf] at hk
    replace hk : f.isCoding = true := hk
    simpa [Matches, Message.start?, isNegotiated, hk, started, abandon] using this

theorem matches_perform (h : c.Matches rs n) {op : Operation} (hop : op ≠ .deactivate) :
    (c.perform op).after.Matches (rs ++ op.request?.toList)
      (n + (op.serves (c.perform op).answer).toNat) := by
  cases op with
  | record r =>
    obtain ⟨hn, hb⟩ := h
    have hle : n ≤ (rs ++ [r]).length := by
      rw [List.length_append]
      omega
    refine ⟨hle, ?_⟩
    change c.backlog.waiting ++ [r] = (rs ++ [r]).drop n
    rw [hb, List.drop_append_of_le_length hn]
  | write m =>
    have hw := matches_write h m
    rwa [← List.append_nil rs] at hw
  | read | drain =>
    rw [← List.append_nil rs] at h
    exact h
  | deactivate => exact absurd rfl hop

/-- **The requests that wait** after a run are those recorded, but for the ones that were served:
the first of them, as many as final responses were negotiated. -/
theorem matches_run (h : c.Matches rs n) {ops : List Operation} (hops : .deactivate ∉ ops) :
    (c.run ops).last.Matches (rs ++ recorded ops) (n + served ops (c.run ops).answers) := by
  induction ops generalizing c rs n with
  | nil =>
    rw [← List.append_nil rs] at h
    exact h
  | cons op ops ih =>
    obtain ⟨hop, hrest⟩ := List.ne_and_not_mem_of_not_mem_cons hops
    have hn := ih (matches_perform h (Ne.symm hop)) hrest
    have hr : recorded (op :: ops) = op.request?.toList ++ recorded ops := by
      cases hq : op.request? <;> simp [recorded, hq]
    rw [hr, ← List.append_assoc]
    rw [Nat.add_assoc] at hn
    exact hn

/-- Where no response starts nothing is consulted. -/
theorem consultations_perform {op : Operation} (hop : op.start? = none) :
    consultations (c.perform op).events = [] := by
  cases op with
  | record r | read | drain => rfl
  | deactivate =>
    by_cases hl : c.lifecycle = .inactive
    · rw [perform, deactivate_of_inactive hl]
      rfl
    · rw [perform, Step.map, deactivate_of_not_inactive hl, closeDown]
      simp only [consultations_append]
      cases c.cycle with
      | none => rfl
      | some cy =>
        have hclose : consultations cy.close.events = [] := consultations_release cy
        rw [hclose]
        rfl
  | write m =>
    have hw := c.wrote m
    rw [perform, Step.map]
    generalize c.write m = s at hw
    replace hop : m.start? = none := hop
    cases hw with
    | terminated | unmatched | headless => rfl
    | overlaps => exact consultations_release _
    | head | aggregate | aggregateFailed => cases hop
    | @chunk k cy ms _ _ _ =>
      simp only [consultations_append, consultations_send, List.nil_append]
      split
      · exact consultations_release _
      · rfl
    | chunkFailed =>
      simp only [consultations_append, consultations_send, consultations_release, List.nil_append]

section start

variable {m : Message} {head : Head} {body : BodyKind}

/-- A response that overlaps another one, or that no request waits for, is refused. -/
theorem refused (ha : c.lifecycle = .active) (hm : m.start? = some (head, body))
    (hc : c.cycle ≠ none ∨ c.backlog.waiting = []) : c.Refused (c.write m) := by
  have hw := c.wrote m
  generalize c.write m = s at hw
  cases hw with
  | terminated hn => exact absurd ha hn
  | overlaps => exact ⟨⟨_, rfl⟩, rfl, rfl, consultations_release _⟩
  | unmatched => exact ⟨⟨_, rfl⟩, rfl, rfl, rfl⟩
  | headless | chunk | chunkFailed => cases hm
  | head _ hn hr => simp [hn, hr] at hc
  | aggregate _ hn hr => simp [hn, hr] at hc
  | aggregateFailed _ hn hr => simp [hn, hr] at hc

/-- A whole response consults what its negotiation does. -/
theorem consultations_whole {r : Request} {a : Aggregate} :
    let n := c.negotiator.negotiate head r body
    consultations (n.events ++
      ((n.cycle.sendWhole a).events ++ (n.cycle.sendWhole a).after.release)) =
        if skipReason? head r body = none then [(head, r.accept)] else [] := by
  simp only [consultations_append, consultations_negotiate, consultations_sendWhole,
    consultations_release, List.append_nil]

/-- Where no other response is open, one is negotiated for the oldest request that waits. -/
theorem negotiates {r : Request} {rest : List Request} (ha : c.lifecycle = .active)
    (hm : m.start? = some (head, body)) (hc : c.cycle = none)
    (hr : c.backlog.waiting = r :: rest) : c.Negotiates r head body m (c.write m) := by
  have hw := c.wrote m
  generalize c.write m = s at hw
  have hb : (c.backlog.matched head).waiting =
      if head.status.isInterim then c.backlog.waiting else c.backlog.waiting.tail := by
    unfold Backlog.matched
    split <;> rfl
  cases hw with
  | terminated hn => exact absurd ha hn
  | overlaps _ _ hcy => simp [hc] at hcy
  | unmatched _ _ _ hn => simp [hr] at hn
  | headless | chunk | chunkFailed => cases hm
  | @head hd r' rest' n _ _ hr' hn =>
    obtain ⟨rfl, rfl⟩ := Prod.mk.inj (Option.some.inj hm)
    obtain ⟨rfl, rfl⟩ := List.cons.inj (hr.symm.trans hr')
    subst hn
    refine ⟨rfl, consultations_negotiate, rfl, hb, isSkip_of_isInterim, ?_, nofun⟩
    rintro h ⟨⟩
    exact ⟨rfl, rfl⟩
  | @aggregate a r' rest' n ms _ _ hr' hn hs =>
    obtain ⟨rfl, rfl⟩ := Prod.mk.inj (Option.some.inj hm)
    obtain ⟨rfl, rfl⟩ := List.cons.inj (hr.symm.trans hr')
    subst hn
    refine ⟨rfl, consultations_whole, rfl, hb, isSkip_of_isInterim, nofun, ?_⟩
    rintro a ⟨⟩
    refine ⟨?_, fun ms' hs' => ?_⟩
    · exact (congrArg (Except.map fun _ => ()) hs).symm
    · rw [Except.ok.inj (hs'.symm.trans hs)]
  | @aggregateFailed a r' rest' n f _ _ hr' hn hs =>
    obtain ⟨rfl, rfl⟩ := Prod.mk.inj (Option.some.inj hm)
    obtain ⟨rfl, rfl⟩ := List.cons.inj (hr.symm.trans hr')
    subst hn
    have hf := isNegotiated_sendWhole (c.negotiated r a.head (.aggregate a.payload.length)).cycle a
    rw [hs] at hf
    refine ⟨hf, consultations_whole, rfl, hb, isSkip_of_isInterim, nofun, ?_⟩
    rintro a ⟨⟩
    refine ⟨?_, fun ms' hs' => ?_⟩
    · exact (congrArg (Except.map fun _ => ()) hs).symm
    · cases hs'.symm.trans hs

end start

/-- **Responses answer requests first in, first out**, after any run in which the connection did
not end. The requests that wait are those recorded, but for as many of the first as were served.
Only a response that starts can consult the decision. On a stage that has not failed it is refused
in the middle of a streamed response, or where every request was served; and is else negotiated
for the first request that was not. -/
theorem paired_of_run (d : δ) (ops : List Operation) (hops : .deactivate ∉ ops) :
    let h := (new d : Connection δ σ).run ops
    let n := served ops h.answers
    n ≤ (recorded ops).length ∧
      h.last.backlog.waiting = (recorded ops).drop n ∧
      h.last.pending = (recorded ops).length - n ∧
      (∀ op, op.start? = none → consultations (h.last.perform op).events = []) ∧
      ∀ m head body, m.start? = some (head, body) →
        (h.last.lifecycle ≠ .active → h.last.write m = .fail .terminated h.last) ∧
        (h.last.lifecycle = .active → h.last.cycle ≠ none ∨ (recorded ops)[n]? = none →
          h.last.Refused (h.last.write m)) ∧
        (h.last.lifecycle = .active → h.last.cycle = none → ∀ r, (recorded ops)[n]? = some r →
          h.last.Negotiates r head body m (h.last.write m)) := by
  intro h n
  have hnew : (new d : Connection δ σ).Matches [] 0 := ⟨Nat.le_refl 0, rfl⟩
  have hrun := matches_run hnew hops
  rw [List.nil_append, Nat.zero_add] at hrun
  obtain ⟨hle, hw⟩ := hrun
  have hsize : h.last.pending = (recorded ops).length - n := by
    rw [pending, Backlog.size, hw, List.length_drop]
  refine ⟨hle, hw, hsize, fun op hop => consultations_perform hop, fun m head body hm => ?_⟩
  refine ⟨write_of_not_active, fun ha hr => refused ha hm ?_, fun ha hc r hr => ?_⟩
  · rcases hr with hc | hr
    · exact .inl hc
    · rw [hw]
      exact .inr (List.drop_eq_nil_of_le (List.getElem?_eq_none_iff.1 hr))
  · obtain ⟨hlt, hget⟩ := List.getElem?_eq_some_iff.1 hr
    have hcons : h.last.backlog.waiting = r :: (recorded ops).drop (n + 1) := by
      rw [hw, List.drop_eq_getElem_cons hlt, hget]
    exact negotiates ha hm hc hcons

section script

open Scripted

/-- Two requests, the first of them answered by an interim and a final response. -/
def pipelined : List Operation :=
  [.record ⟨.get, some "gzip"⟩, .record ⟨.head, none⟩, .write (.head { status := { code := 100 } }),
    .write (.chunk { payload := [], last := true }), .write (.aggregate ⟨{}, [1], none⟩)]

/-- A third response is negotiated for the second request, which forbids coding. -/
theorem paired_of_pipelined_run :
    .deactivate ∉ pipelined ∧
      let c := ((new ⟨[some ⟨Octets.ofString "x", {}⟩], 0⟩ : Connection Script Machine).run
        pipelined).last
      c.pending = 1 ∧ c.Negotiates ⟨.head, none⟩ {} .streamed (.head {}) (c.write (.head {})) := by
  have hops : .deactivate ∉ pipelined := by decide
  have h := paired_of_run (⟨[some ⟨Octets.ofString "x", {}⟩], 0⟩ : Script) pipelined hops
  have hn : served pipelined ((new ⟨[some ⟨Octets.ofString "x", {}⟩], 0⟩ :
      Connection Script Machine).run pipelined).answers = 1 := by decide
  obtain ⟨-, -, hp, -, hs⟩ := h
  rw [hn] at hp
  refine ⟨hops, hp, (hs (.head {}) {} .streamed rfl).2.2 ?_ ?_ _ ?_⟩
  · decide
  · decide
  · rw [hn]
    rfl

end script

end Connection

end ContentCoding
