import ContentCoding.Proofs.Aftermath
import ContentCoding.Proofs.CodedHeads
import ContentCoding.Proofs.Passing
import ContentCoding.Proofs.StoredStreams
import Mathlib.Data.List.Induction

/-!
# What may be coded

No response is coded against the wishes of its client, or where HTTP forbids it. A head that is
emitted is traced back to the write that put it out, from there to the request that the response
answers, and from there to the entry of Accept-Encoding that asks for the coding.

* `put_write`: the heads that a write puts out.
* `origin_of_run`: **every head that is emitted in a run was put out by one of its writes**, which
  let it pass or coded the response.
* `permits_of_codes`: what is known of a response that a selector codes.
* `permitted_of_run`: **every response that is coded in a run may be coded**, and its own request
  asks for the coding.
-/

namespace ContentCoding

/-- **A value of Accept-Encoding asks for a coding**: one of its entries names the coding and does
not refuse it. -/
def AcceptEncoding.Asks (value : Text) (coding : Coding) : Prop :=
  ∃ e ∈ entries value, coding.isNamed e.token = true ∧ e.weight.isRefusal = false

theorem AcceptEncoding.asks_of_choose {value : String} {coding : Coding}
    (h : choose? value = some coding) : Asks value.toList coding := by
  obtain ⟨o, ho, rfl⟩ := choose_mem h
  obtain ⟨e, he, hoffer⟩ := List.mem_filterMap.1 ho
  unfold Entry.offer? at hoffer
  split at hoffer
  · cases hoffer
  · rename_i hr
    obtain ⟨coding, hc, rfl⟩ := Option.map_eq_some_iff.1 hoffer
    exact ⟨e, he, Coding.isNamed_of_ofToken? hc, Bool.not_eq_true _ ▸ hr⟩

/-- **What permits a response to be coded**: no rule of HTTP forbids it, it is not coded yet nor a
part of something else, there is something to code, and its request asks for the coding. -/
structure Permits (m : Message) (head : Head) (r : Request) (coding : Coding) : Prop where
  noHead : r.method ≠ .head
  noTunnel : r.method = .connect → ¬ (200 ≤ head.status.code ∧ head.status.code < 300)
  final : 200 ≤ head.status.code
  content : head.status.code ≠ 204
  modified : head.status.code ≠ 304
  version : head.version ≠ .http09 ∧ head.version ≠ .http10
  uncoded : head.fields.values .contentEncoding = []
  unranged : head.fields.values .contentRange = []
  nonempty : ∀ a, m = .aggregate a → a.payload ≠ []
  asked : ∃ value, r.accept = some value ∧ AcceptEncoding.Asks value.toList coding
  /-- Of a request that was observed the first line of Accept-Encoding counts. -/
  observed : ∀ method fields, r = .observe method fields →
    ∃ line text, fields.first? .acceptEncoding = some line ∧ Octets.text? line = some text ∧
      AcceptEncoding.Asks text coding

section permits

variable {m : Message} {head : Head} {body : BodyKind} {r : Request} {coding : Coding}

/-- **Where no rule forbids coding and the request asks for it, it is permitted**, unless the
response is a part of something else. -/
theorem permits_of_asks {value : String} (hm : m.start? = some (head, body))
    (hr : skipReason? head r body = none) (hrange : head.fields.has .contentRange = false)
    (ha : r.accept = some value) (hasks : AcceptEncoding.Asks value.toList coding) :
    Permits m head r coding := by
  have hrule := skipReason?_eq_none_iff.1 hr
  have hbodyless := hrule .bodylessStatus
  simp only [SkipReason.applies, Status.isBodyless, Bool.or_eq_false_iff] at hbodyless
  obtain ⟨⟨hinfo, hno⟩, hnot⟩ := hbodyless
  refine ⟨?_, ?_, ?_, ?_, ?_, ?_, ?_, ?_, ?_, ⟨value, ha, hasks⟩, ?_⟩
  · have hhead := hrule .headRequest
    simpa [SkipReason.applies, Request.isHead] using hhead
  · intro hconnect hcode
    have htunnel := hrule .connectEstablished
    simp [SkipReason.applies, Request.isConnect, hconnect, Status.isSuccess] at htunnel
    omega
  · have hbounds := head.status.bounds
    simp [Status.isInformational] at hinfo
    omega
  · intro hcode
    have hstatus : head.status = .noContent := Status.eq_of_code hcode
    rw [hstatus] at hno
    cases hno
  · intro hcode
    have hstatus : head.status = .notModified := Status.eq_of_code hcode
    rw [hstatus] at hnot
    cases hnot
  · have hversion := hrule .legacyVersion
    simp only [SkipReason.applies] at hversion
    constructor
    · intro h
      rw [h] at hversion
      cases hversion
    · intro h
      rw [h] at hversion
      cases hversion
  · exact Fields.has_eq_false_iff.1 (hrule .alreadyEncoded)
  · exact Fields.has_eq_false_iff.1 hrange
  · rintro a rfl
    obtain ⟨rfl, rfl⟩ := Prod.mk.inj (Option.some.inj hm)
    have hempty := hrule .emptyBody
    intro hp
    simp [SkipReason.applies, hp] at hempty
  · rintro method fields rfl
    -- what was recorded is the text of that line
    obtain ⟨text, ht, rfl⟩ := Option.map_eq_some_iff.1 ha
    obtain ⟨line, hl, hline⟩ := Option.bind_eq_some_iff.1 ht
    rw [String.toList_ofList] at hasks
    exact ⟨line, text, hl, hline, hasks⟩

end permits

/-- A message that stands first, with no head behind it. -/
theorem Message.eq_of_cons_eq_append {first : Message} (body : List Message)
    {front rest : List Message} {sent : Head} (hb : ∀ x ∈ body, x.head? = none)
    (h : first :: body = front ++ .head sent :: rest) : front = [] ∧ first = .head sent := by
  cases front with
  | nil => exact ⟨rfl, (List.cons.inj h).1⟩
  | cons x front =>
    have hmem : .head sent ∈ body := by
      rw [(List.cons.inj h).2]
      exact List.mem_append_right _ (List.mem_cons_self ..)
    cases hb _ hmem

namespace Connection

section origin

variable {δ σ : Type} [Decision δ σ] [Compressor σ] {c : Connection δ σ} {cy : Cycle σ}
  {m : Message} {k : Chunk}

/-- **The head that goes out for a message**: the one that was written where it passes, and where
the response is coded one that announces this coding and no other. -/
inductive Heads (c : Connection δ σ) : Message → Head → Prop
  | passed {head : Head} : c.Passes (.head head) → Heads c (.head head) head
  | coded {m : Message} {sent : Head} {label : Octets} {l : Lease σ} : c.Codes m label l →
      sent.fields.values .contentEncoding = [label] → Heads c m sent

/-- What leaves for a chunk starts no response. -/
theorem head?_of_sent {ms : List Message} (hs : (cy.send k).answer = .ok ms) :
    ∀ m ∈ ms, m.head? = none := by
  intro m hm
  cases hp : cy.isSkip with
  | true =>
    rw [Cycle.send_of_isSkip hp] at hs
    obtain rfl := Except.ok.inj hs
    rw [List.mem_singleton.1 hm]
    rfl
  | false =>
    cases hk : k.last with
    | true =>
      simp only [Cycle.send, hp, hk, Bool.false_eq_true, ↓reduceIte, Step.map] at hs
      obtain ⟨out, -, rfl⟩ := ok_of_map hs
      exact head?_of_coded hm
    | false =>
      simp only [Cycle.send, hp, hk, Bool.false_eq_true, ↓reduceIte, Step.map] at hs
      obtain ⟨out, -, rfl⟩ := ok_of_map hs
      rw [(Message.mem_data.1 hm).2]
      rfl

omit [Compressor σ] in
/-- A response that starts either passes or is coded. -/
theorem passes_or_codes {head : Head} {body : BodyKind} {r : Request} {rest : List Request}
    (ha : c.lifecycle = .active) (hc : c.cycle = none) (hb : c.backlog.waiting = r :: rest)
    (hm : m.start? = some (head, body)) :
    c.negotiator.LetsPass head r body ∧ (c.negotiated r head body).cycle.isSkip = true ∨
      ∃ label l, c.Codes m label l ∧ (c.negotiated r head body).cycle.label? = some label := by
  cases ht : (c.negotiated r head body).cycle.treatment with
  | skipped reason =>
    have hskip : (c.negotiated r head body).cycle.isSkip = true := by rw [Cycle.isSkip, ht]
    exact .inl ⟨Negotiator.isSkip_negotiate_iff.1 hskip, hskip⟩
  | encoded label l =>
    refine .inr ⟨label, l, ⟨ha, hc, head, body, r, rest, hm, hb, ht⟩, ?_⟩
    rw [Cycle.label?, ht]

/-- **What a write puts out**: it cuts what was to be sent, or puts messages behind it, and of those
only the first can be a head. -/
theorem put_write (c : Connection δ σ) (m : Message) :
    (c.write m).after.outbound <+: c.outbound ∨
      ∃ ms, (c.write m).after.outbound = c.outbound ++ ms ∧
        ∀ front sent rest, ms = front ++ .head sent :: rest → front = [] ∧ c.Heads m sent := by
  have hw := c.wrote m
  generalize hs : c.write m = w at hw ⊢
  cases hw with
  | terminated => exact .inl List.prefix_rfl
  | overlaps | unmatched | headless | chunkFailed | aggregateFailed => exact .inl List.nil_prefix
  | @head h r rest n ha hc hb hn =>
    refine .inr ⟨_, rfl, fun front sent more hfront => ?_⟩
    obtain ⟨rfl, hsent⟩ := Message.eq_of_cons_eq_append [] nofun hfront
    obtain rfl := Message.head.inj hsent
    refine ⟨rfl, ?_⟩
    rcases passes_or_codes ha hc hb (m := .head h) rfl with ⟨hp, hskip⟩ | ⟨label, l, hcodes, hl⟩
    · rw [hn, Cycle.announce_of_isSkip hskip]
      exact .passed (passes_head ha hc hb hp).1
    · rw [hn]
      exact .coded hcodes (Cycle.coding_announce hl)
  | @chunk k cy ms _ _ hms =>
    refine .inr ⟨ms, rfl, fun front sent more hfront => ?_⟩
    have hmem : .head sent ∈ ms := by
      rw [hfront]
      exact List.mem_append_right _ (List.mem_cons_self ..)
    cases head?_of_sent hms _ hmem
  | @aggregate a r rest n ms ha hc hb hn hms =>
    refine .inr ⟨ms, rfl, fun front sent more hfront => ?_⟩
    rcases passes_or_codes ha hc hb (m := .aggregate a) rfl with
      ⟨-, hskip⟩ | ⟨label, l, hcodes, hl⟩
    · -- what passes has no head of its own
      rw [hn, Cycle.sendWhole_of_isSkip hskip] at hms
      obtain rfl := Except.ok.inj hms
      obtain ⟨-, hsent⟩ := Message.eq_of_cons_eq_append [] nofun hfront
      cases hsent
    · rw [hn] at hms
      generalize (c.negotiated r a.head (.aggregate a.payload.length)).cycle = cy at hms hl
      obtain ⟨treatment, rep, fin⟩ := cy
      cases treatment with
      | skipped reason => cases hl
      | encoded label' l' =>
        rw [Cycle.answer_sendWhole] at hms
        obtain ⟨out, -, rfl⟩ := ok_of_map hms
        obtain ⟨rfl, hsent⟩ := Message.eq_of_cons_eq_append _ (fun _ => head?_of_coded) hfront
        obtain rfl := Message.head.inj hsent
        exact ⟨rfl, .coded hcodes (Cycle.coding_announceWhole hl)⟩

/-- What an operation does to what was emitted: it cuts it, or it is a write that puts messages
behind it. -/
theorem put_perform (c : Connection δ σ) (op : Operation) :
    takenOf [(c.perform op).answer] ++ (c.perform op).after.outbound <+: c.outbound ∨
      ∃ m ms, op = .write m ∧
        takenOf [(c.perform op).answer] ++ (c.perform op).after.outbound = c.outbound ++ ms ∧
        ∀ front sent rest, ms = front ++ .head sent :: rest → front = [] ∧ c.Heads m sent := by
  cases haside : op.isAside with
  | true =>
    obtain ⟨-, -, ho, -⟩ := perform_aside (c := c) haside
    exact .inl (ho ▸ List.prefix_rfl)
  | false =>
    cases op with
    | record r | read | drain => cases haside
    | deactivate =>
      rw [perform, Step.map, takenOf_map_nil, List.nil_append]
      exact .inl (outbound_deactivate c)
    | write m =>
      rw [perform, Step.map, takenOf_map_nil, List.nil_append]
      rcases put_write c m with hcut | ⟨ms, hms, hheads⟩
      · exact .inl hcut
      · exact .inr ⟨m, ms, rfl, hms, hheads⟩

/-- **Every head that is emitted in a run was put out by one of its writes**, behind what was
emitted by then. -/
theorem origin_of_run (d : δ) (ops : List Operation) {front rest : List Message} {sent : Head}
    (he : ((new d : Connection δ σ).run ops).taken ++
      ((new d : Connection δ σ).run ops).last.outbound = front ++ .head sent :: rest) :
    ∃ before m behind, ops = before ++ .write m :: behind ∧
      let b := (new d : Connection δ σ).run before
      b.taken ++ b.last.outbound = front ∧ b.last.Heads m sent := by
  induction ops using List.reverseRecOn generalizing rest with
  | nil => cases front <;> cases he
  | append_singleton ops op ih =>
    let h := (new d : Connection δ σ).run ops
    -- what an operation before this one put out stays where it was
    have hearlier (more : List Message)
        (hm : h.taken ++ h.last.outbound = front ++ .head sent :: more) :
        ∃ before m behind, ops ++ [op] = before ++ .write m :: behind ∧
          let b := (new d : Connection δ σ).run before
          b.taken ++ b.last.outbound = front ∧ b.last.Heads m sent := by
      obtain ⟨before, m, behind, rfl, hb⟩ := ih hm
      exact ⟨before, m, behind ++ [op], by simp, hb⟩
    have hnow : ((new d : Connection δ σ).run (ops ++ [op])).taken ++
        ((new d : Connection δ σ).run (ops ++ [op])).last.outbound =
          h.taken ++ (takenOf [(h.last.perform op).answer] ++
            (h.last.perform op).after.outbound) := by
      rw [run_concat, ← List.append_assoc]
      exact congrArg (· ++ _) (takenOf_append h.answers [(h.last.perform op).answer])
    rw [hnow] at he
    rcases put_perform h.last op with hcut | ⟨m, ms, rfl, hput, hheads⟩
    · obtain ⟨cut, hcut⟩ := hcut
      refine hearlier (rest ++ cut) ?_
      rw [← hcut, ← List.append_assoc, he]
      simp
    · rw [hput, ← List.append_assoc] at he
      -- this write put the head out, unless it was there before
      have hthis (hfront : h.taken ++ h.last.outbound = front) (hms : ms = .head sent :: rest) :
          ∃ before m' behind, ops ++ [.write m] = before ++ .write m' :: behind ∧
            let b := (new d : Connection δ σ).run before
            b.taken ++ b.last.outbound = front ∧ b.last.Heads m' sent :=
        ⟨ops, m, [], rfl, hfront, (hheads [] sent rest hms).2⟩
      rcases List.append_eq_append_iff.1 he with ⟨gap, hfront, hms⟩ | ⟨gap, hfront, hrest⟩
      · obtain ⟨rfl, -⟩ := hheads gap sent rest hms
        exact hthis (by rw [hfront, List.append_nil]) hms
      · cases gap with
        | nil => exact hthis (by rw [hfront, List.append_nil]) hrest.symm
        | cons x gap =>
          obtain ⟨rfl, -⟩ := List.cons.inj hrest
          exact hearlier gap hfront

end origin

/-- A stage that is active was never ended. -/
theorem deactivate_notMem_of_active {δ σ : Type} [Decision δ σ] [Compressor σ]
    {c : Connection δ σ} {ops : List Operation} (h : (c.run ops).last.lifecycle = .active) :
    .deactivate ∉ ops := by
  intro hmem
  obtain ⟨before, behind, rfl⟩ := List.append_of_mem hmem
  have hend : (c.run (before ++ .deactivate :: behind)).last.lifecycle = .inactive := by
    rw [run_append]
    exact (takenOf_run_of_inactive (lifecycle_deactivate _) behind).1
  cases hend.symm.trans h

section selection

variable {ε : Type} [Engine ε] {m : Message} {label : Octets}
  {l : Lease (StreamCompressor ε)}

omit [Engine ε] in
/-- **What a selector codes may be coded**, for the request that waits first. -/
theorem permits_of_codes {c : Connection (Selector ε) (StreamCompressor ε)}
    (h : c.Codes m label l) :
    ∃ r rest head coding, c.backlog.waiting = r :: rest ∧ m.head? = some head ∧
      label = Octets.ofString coding.label ∧ Permits m head r coding := by
  obtain ⟨-, -, head, body, r, rest, hm, hb, ht⟩ := h
  obtain ⟨hr, coding, hs, rfl, -⟩ := Negotiator.selected_of_encoded ht
  obtain ⟨hchoose, hsuits⟩ := Selector.select_eq_some_iff.1 hs
  obtain ⟨value, ha, hvalue⟩ := Option.bind_eq_some_iff.1 hchoose
  have hrange : head.fields.has .contentRange = false := by
    simp only [Selector.suits, Bool.and_eq_true, Bool.not_eq_true'] at hsuits
    exact hsuits.1.1
  have hhead : m.head? = some head := by
    cases m with
    | chunk k => cases hm
    | head _ | aggregate _ =>
      obtain ⟨rfl, -⟩ := Prod.mk.inj (Option.some.inj hm)
      rfl
  exact ⟨r, rest, head, coding, hb, hhead, rfl,
    permits_of_asks hm hr hrange ha (AcceptEncoding.asks_of_choose hvalue)⟩

/-- **Every response that is coded in a run may be coded**, whatever the run is. A head that was
emitted was put out by one write, behind all that was emitted by then. Either that write let it pass
as it was written; or it coded the response, and the head announces this coding and no other. Then
the response was matched to the first request that was not served by then, nothing forbids to code
it, and that request asks for the coding. -/
theorem permitted_of_run (s : Selector ε) (ops : List Operation) {front rest : List Message}
    {sent : Head} :
    let h := (new s : Connection (Selector ε) (StreamCompressor ε)).run ops
    h.taken ++ h.last.outbound = front ++ .head sent :: rest →
    ∃ before m behind, ops = before ++ .write m :: behind ∧
      let b := (new s : Connection (Selector ε) (StreamCompressor ε)).run before
      b.taken ++ b.last.outbound = front ∧
        (m = .head sent ∧ b.last.Passes m ∨
          ∃ r head coding l, (recorded before)[served before b.answers]? = some r ∧
            m.head? = some head ∧ b.last.Codes m (Octets.ofString coding.label) l ∧
            sent.fields.values .contentEncoding = [Octets.ofString coding.label] ∧
            Permits m head r coding) := by
  intro h he
  obtain ⟨before, m, behind, rfl, hfront, hheads⟩ := origin_of_run s ops he
  refine ⟨before, m, behind, rfl, hfront, ?_⟩
  cases hheads with
  | passed hp => exact .inl ⟨rfl, hp⟩
  | coded hcodes hl =>
    obtain ⟨r, rest, head, coding, hb, hhead, rfl, hp⟩ := permits_of_codes hcodes
    have hnew : (new s : Connection (Selector ε) (StreamCompressor ε)).Matches [] 0 :=
      ⟨Nat.le_refl 0, rfl⟩
    obtain ⟨-, hw⟩ := matches_run hnew (deactivate_notMem_of_active hcodes.active)
    rw [List.nil_append, Nat.zero_add, hb] at hw
    have hr : (recorded before)[served before ((new s :
        Connection (Selector ε) (StreamCompressor ε)).run before).answers]? = some r := by
      rw [← List.head?_drop, ← hw]
      rfl
    exact .inr ⟨r, head, coding, _, hr, hhead, hcodes, hl, hp⟩

section stored

open Stored

/-- Two requests, the second of them with two lines of Accept-Encoding, and their responses. -/
def observed : List Operation :=
  [.record ⟨.head, some "gzip"⟩,
    .record (.observe .get [⟨.acceptEncoding, Octets.ofString "br;q=0, X-GZip"⟩,
      ⟨.acceptEncoding, Octets.ofString "zstd"⟩]),
    .write (.aggregate ⟨{}, [1], none⟩), .read, .write (.head {})]

/-- The head of a streamed response that is coded with gzip. -/
def announced : Head := { fields := Framing.chunked.announce (Octets.ofString "gzip") [] }

/-- The second response is coded, as its request asks. -/
theorem permitted_of_observed_run :
    let h := (new storing : Connection (Selector Encoder) (StreamCompressor Encoder)).run observed
    h.taken ++ h.last.outbound = [.aggregate ⟨{}, [1], none⟩] ++ .head announced :: [] ∧
      ∃ m head r coding, .write m ∈ observed ∧
        announced.fields.values .contentEncoding = [Octets.ofString coding.label] ∧
        Permits m head r coding := by
  intro h
  have he : h.taken ++ h.last.outbound =
      [.aggregate ⟨{}, [1], none⟩] ++ .head announced :: [] := by decide +kernel
  obtain ⟨before, m, behind, hops, -, hm⟩ := permitted_of_run storing observed he
  have hmem : .write m ∈ observed := by
    rw [hops]
    exact List.mem_append_right _ (List.mem_cons_self ..)
  rcases hm with ⟨rfl, -⟩ | ⟨r, head, coding, -, -, -, -, hl, hp⟩
  · -- this head was not written
    exact absurd hmem (by decide)
  · exact ⟨he, m, head, r, coding, hmem, hl, hp⟩

end stored

end selection

end Connection

end ContentCoding
