import ContentCoding.Proofs.CodedBodies

/-!
# What is emitted is a sequence of responses

The messages that leave a stage are told apart into responses, each beside what was written for it
and the events that it caused. All of them are whole, but for one at most that is under way, and no
response looks whole before it is.

* `Emission.Whole`, `Emission.Begun`: what a response is at its end, and before.
* `Emission.Under`: a response under way is what its cycle has sent of the chunks so far.
* `begun_of_under`, `whole_of_last`: up to its last chunk a response is begun, and whole with it.
* `chronicle_run`: every run is a list of responses.
* `wellFormed_of_run`: **what is emitted in a run is a sequence of whole responses**, and behind
  them the one that is open.
-/

namespace ContentCoding

namespace Message

/-- The piece of a body that a message carries. -/
def body? : Message → Option Octets
  | .head _ => none
  | .chunk k => some k.payload
  | .aggregate a => some a.payload

/-- A chunk that is not the last one. -/
def isPiece : Message → Bool
  | .chunk k => !k.last
  | .head _ | .aggregate _ => false

/-- **A message as a coding leaves it**: a head, the last chunk if it is empty, and any other one
if it is not. -/
def IsCoded : Message → Prop
  | .head _ => True
  | .chunk k => k.payload = [] ↔ k.last = true
  | .aggregate _ => False

end Message

/-- **A whole response**: one message, or a head, chunks, and a last chunk. -/
inductive IsWhole : List Message → Prop
  | aggregate (a : Aggregate) : IsWhole [.aggregate a]
  | streamed (head : Head) {body : List Message} {k : Chunk} :
      (∀ m ∈ body, m.isPiece = true) → k.last = true →
      IsWhole (.head head :: (body ++ [.chunk k]))

/-- **A response that is not whole yet**: a head, and chunks of which none is the last. -/
inductive IsBegun : List Message → Prop
  | streamed (head : Head) {body : List Message} :
      (∀ m ∈ body, m.isPiece = true) → IsBegun (.head head :: body)

/-- **A response**: what was written for it, what is sent for it, and the events that it caused. -/
structure Emission where
  written : List Message
  sent : List Message
  events : List Event

namespace Emission

/-- One more message that was written, with what left for it and what it caused. -/
def add (r : Emission) (m : Message) (ms : List Message) (es : List Event) : Emission :=
  ⟨r.written ++ [m], r.sent ++ ms, r.events ++ es⟩

/-- **Responses taken together**, one after another. -/
def total (rs : List Emission) : Emission :=
  ⟨rs.flatMap written, rs.flatMap sent, rs.flatMap events⟩

theorem total_concat_add (rs : List Emission) (r : Emission) (m : Message) (ms : List Message)
    (es : List Event) : total (rs ++ [r.add m ms es]) = (total (rs ++ [r])).add m ms es := by
  simp [total, add]

theorem total_concat (rs : List Emission) (m : Message) (ms : List Message) (es : List Event) :
    total (rs ++ [⟨[m], ms, es⟩]) = (total rs).add m ms es := by
  simp [total, add]

/-- A response that passes: what is sent is what was written, and no compressor is called. -/
def Passes (r : Emission) : Prop := r.sent = r.written ∧ calls r.events = []

/-- The pieces of the body that was written. -/
def pieces (r : Emission) : List Octets := r.written.filterMap Message.body?

/-- **A response at its end.** All of it was written. It passes, or it is coded by a compressor that
was given the body piece by piece, and of which no call failed up to the close. -/
structure Whole (r : Emission) : Prop where
  written : IsWhole r.written
  sent : IsWhole r.sent
  treated : r.Passes ∨ (∀ m ∈ r.sent, m.IsCoded) ∧
    ∃ (id : Nat) (taken : List (Octets × Octets)) (rest : Option Octets),
      taken.map Prod.fst = r.pieces ∧ calls r.events = (Life.coding id taken rest).events

/-- **A response before its end.** Its last chunk was neither written nor sent. It passes, or it is
coded by a compressor that was given the pieces so far, and is open. -/
structure Begun (r : Emission) : Prop where
  written : IsBegun r.written
  sent : IsBegun r.sent
  treated : r.Passes ∨ (∀ m ∈ r.sent, m.IsCoded) ∧
    ∃ (id : Nat) (taken : List (Octets × Octets)), taken.map Prod.fst = r.pieces ∧
      calls r.events = .opened id :: Life.feeding id (taken.map fun p => (p.1, .ok p.2))

end Emission

section shapes

variable {ks : List Chunk} {pieces : List (Octets × Octets)} {last out : Octets}
  {rest : Option Octets} {trailers : Option Fields} {m : Message} {k : Chunk}

theorem isPiece_chunks (hks : ∀ k ∈ ks, k.last = false) :
    ∀ m ∈ ks.map Message.chunk, m.isPiece = true := by
  intro m hm
  obtain ⟨k, hk, rfl⟩ := List.mem_map.1 hm
  rw [Message.isPiece, hks k hk]
  rfl

theorem bodies_chunks (ks : List Chunk) :
    (ks.map Message.chunk).filterMap Message.body? = ks.map Chunk.payload := by
  rw [List.filterMap_map]
  exact List.filterMap_eq_map_iff_forall_eq_some.2 fun _ _ => rfl

/-- Data leave in pieces. -/
theorem isPiece_data (hm : m ∈ Message.data out) : m.isPiece = true := by
  rw [(Message.mem_data.1 hm).2]
  rfl

/-- Data are not empty, and never the end. -/
theorem isCoded_data (hm : m ∈ Message.data out) : m.IsCoded := by
  obtain ⟨hne, rfl⟩ := Message.mem_data.1 hm
  exact ⟨fun h => absurd h hne, fun h => absurd h Bool.false_ne_true⟩

theorem isPiece_flatMap_data (pieces : List (Octets × Octets)) :
    ∀ m ∈ pieces.flatMap fun p => Message.data p.2, m.isPiece = true := by
  intro m hm
  obtain ⟨p, -, hm⟩ := List.mem_flatMap.1 hm
  exact isPiece_data hm

/-- What leaves for a coded body before its end, and the head before it. -/
theorem isCoded_begun (head : Head) (pieces : List (Octets × Octets)) :
    ∀ m ∈ .head head :: pieces.flatMap fun p => Message.data p.2, m.IsCoded := by
  intro m hm
  rcases List.mem_cons.1 hm with rfl | hm
  · trivial
  · obtain ⟨p, -, hm⟩ := List.mem_flatMap.1 hm
    exact isCoded_data hm

/-- The translation of a body is the rest of a whole response. -/
theorem isWhole_translation (head : Head) (pieces : List (Octets × Octets)) (last : Octets)
    (rest : Option Octets) (trailers : Option Fields) :
    IsWhole (.head head :: Message.translation pieces last rest trailers) := by
  rw [Message.translation, ← List.append_assoc]
  refine .streamed head (fun m hm => ?_) rfl
  rcases List.mem_append.1 hm with hm | hm
  · exact isPiece_flatMap_data pieces m hm
  · exact isPiece_data hm

theorem isCoded_translation (head : Head) (pieces : List (Octets × Octets)) (last : Octets)
    (rest : Option Octets) (trailers : Option Fields) :
    ∀ m ∈ .head head :: Message.translation pieces last rest trailers, m.IsCoded := by
  intro m hm
  rw [Message.translation, ← List.cons_append] at hm
  rcases List.mem_append.1 hm with hm | hm
  · exact isCoded_begun head pieces m hm
  · rcases List.mem_append.1 hm with hm | hm
    · exact isCoded_data hm
    · obtain rfl := List.mem_singleton.1 hm
      exact ⟨fun _ => rfl, fun _ => rfl⟩

theorem calls_feeding (id : Nat) (pieces : List (Octets × Except Cause Octets)) :
    calls (Life.feeding id pieces) = Life.feeding id pieces := by
  refine List.filter_eq_self.2 fun e he => ?_
  obtain ⟨p, -, rfl⟩ := List.mem_map.1 he
  rfl

/-- What follows the opening of a compressor up to the close is the rest of its life. -/
theorem calls_of_opened {opening events : List Event} {l : Life}
    (ho : calls opening = [.opened l.id]) (he : .opened l.id :: events = l.events) :
    calls (opening ++ events) = l.events := by
  have hcalls : calls (.opened l.id :: events) = .opened l.id :: calls events := rfl
  rw [calls_append, ho, List.singleton_append, ← hcalls, he]
  exact Life.calls_events l

end shapes

/-- **A cycle that was just negotiated**, with the events of the negotiation. -/
inductive Cycle.Fresh {σ : Type} : Cycle σ → List Event → Prop
  | skipped {reason : SkipReason} {rep : Representation} {es : List Event} :
      calls es = [] → Fresh ⟨.skipped reason, rep, false⟩ es
  | encoded {label : Octets} {l : Lease σ} {rep : Representation} {es : List Event} :
      l.closed = false → calls es = [.opened l.id] → Fresh ⟨.encoded label l, rep, false⟩ es

theorem Negotiator.fresh_negotiate {δ σ : Type} [Decision δ σ] (n : Negotiator δ) (head : Head)
    (r : Request) (body : BodyKind) :
    (n.negotiate head r body).cycle.Fresh (n.negotiate head r body).events := by
  unfold negotiate
  split
  · exact .skipped rfl
  · split
    · exact .skipped rfl
    · exact .encoded rfl rfl

namespace Emission

variable {σ : Type} [Compressor σ] {cy first : Cycle σ} {r : Emission} {k : Chunk}
  {ms : List Message} {opening : List Event}

/-- **A response under way**, with its cycle: what is sent for its body is what the cycle made of
the chunks so far, and of those none was the last. -/
def Under (r : Emission) (cy : Cycle σ) : Prop :=
  ∃ (first : Cycle σ) (head : Head) (ks : List Chunk) (ms : List Message) (opening : List Event),
    first.Fresh opening ∧ (∀ k ∈ ks, k.last = false) ∧
    (first.sendAll ks).answer = .ok ms ∧ (first.sendAll ks).after = cy ∧
    r = ⟨.head head :: ks.map .chunk, .head (first.announce .chunked head) :: ms,
      opening ++ (first.sendAll ks).events⟩

/-- A response that was just started is under way. -/
theorem under_head (hf : first.Fresh opening) (head : Head) :
    Under ⟨[.head head], [.head (first.announce .chunked head)], opening⟩ first :=
  ⟨first, head, [], [], opening, hf, nofun, rfl, rfl, by simp [Cycle.sendAll, Step.pure]⟩

/-- A piece goes on with the response that is under way. -/
theorem under_piece (h : r.Under cy) (hk : k.last = false) (hs : (cy.send k).answer = .ok ms) :
    (r.add (.chunk k) ms (cy.send k).events).Under (cy.send k).after := by
  obtain ⟨first, head, ks, front, opening, hf, hks, hall, rfl, rfl⟩ := h
  have hmore := Cycle.sendAll_concat_of_ok hall hs
  refine ⟨first, head, ks ++ [k], front ++ ms, opening, hf, ?_, ?_, ?_, ?_⟩
  · intro x hx
    rcases List.mem_append.1 hx with hx | hx
    · exact hks x hx
    · rwa [List.mem_singleton.1 hx]
  · rw [hmore]
  · rw [hmore]
  · rw [hmore, add]
    simp

/-- **Up to its last chunk a response is begun.** -/
theorem begun_of_under (h : r.Under cy) : r.Begun := by
  obtain ⟨first, head, ks, ms, opening, hf, hks, hall, -, rfl⟩ := h
  have hw : IsBegun (.head head :: ks.map .chunk) := .streamed head (isPiece_chunks hks)
  cases hf with
  | skipped hes =>
    rw [Cycle.sendAll_of_skipped] at hall ⊢
    obtain rfl := Except.ok.inj hall
    refine ⟨hw, hw, .inl ⟨rfl, ?_⟩⟩
    rw [List.append_nil]
    exact hes
  | @encoded label l rep _ hl hes =>
    obtain ⟨taken, s, -, hfst, hsent⟩ := Cycle.sendAll_pieces hks hall
    rw [hsent] at hall ⊢
    obtain rfl := Except.ok.inj hall
    refine ⟨hw, .streamed _ (isPiece_flatMap_data taken),
      .inr ⟨isCoded_begun _ taken, l.id, taken, ?_, ?_⟩⟩
    · exact hfst.trans (bodies_chunks ks).symm
    · rw [calls_append, hes, calls_feeding]
      rfl

/-- **With its last chunk a response is whole.** -/
theorem whole_of_last (h : r.Under cy) (hk : k.last = true) (hs : (cy.send k).answer = .ok ms) :
    (r.add (.chunk k) ms (cy.send k).events).Whole := by
  obtain ⟨first, head, ks, front, opening, hf, hks, hall, rfl, rfl⟩ := h
  have hmore := Cycle.sendAll_concat_of_ok hall hs
  have hw : IsWhole (.head head :: (ks.map .chunk ++ [.chunk k])) :=
    .streamed head (isPiece_chunks hks) hk
  cases hf with
  | skipped hes =>
    rw [Cycle.sendAll_of_skipped] at hall hs ⊢
    obtain rfl := Except.ok.inj hall
    obtain rfl := Except.ok.inj hs
    refine ⟨hw, hw, .inl ⟨rfl, ?_⟩⟩
    rw [add, List.append_nil]
    exact (List.append_nil opening).symm ▸ hes
  | @encoded label l rep _ hl hes =>
    obtain ⟨taken, out, rest, hfst, -, hms, hev⟩ :=
      Cycle.sendAll_body hl hks hk (congrArg Step.answer hmore)
    rw [hmore] at hev
    simp only [add, List.cons_append, hms, List.append_assoc]
    refine ⟨hw, isWhole_translation _ taken out rest _,
      .inr ⟨isCoded_translation _ taken out rest _, l.id, taken ++ [(k.payload, out)], rest, ?_,
        calls_of_opened hes hev⟩⟩
    rw [List.map_append, hfst, pieces, List.filterMap_cons_none rfl, List.filterMap_append,
      bodies_chunks]
    rfl

/-- **A response that was written whole is whole.** -/
theorem whole_of_aggregate {a : Aggregate} (hf : first.Fresh opening)
    (hs : (first.sendWhole a).answer = .ok ms) :
    Whole ⟨[.aggregate a], ms,
      opening ++ ((first.sendWhole a).events ++ (first.sendWhole a).after.release)⟩ := by
  cases hf with
  | skipped hes =>
    obtain rfl := Except.ok.inj hs
    refine ⟨.aggregate a, .aggregate a, .inl ⟨rfl, ?_⟩⟩
    exact (List.append_nil opening).symm ▸ hes
  | @encoded label l rep _ hl hes =>
    rw [Cycle.answer_sendWhole] at hs
    obtain ⟨coded, hcoded, rfl⟩ := ok_of_map hs
    obtain ⟨out, s, rest, t, -, -, -, rfl, hev⟩ := Cycle.compressLast_of_encoded hl hcoded
    refine ⟨.aggregate a, isWhole_translation _ [] out rest a.trailers,
      .inr ⟨isCoded_translation _ [] out rest a.trailers, l.id, [(a.payload, out)], rest, rfl,
        calls_of_opened hes ?_⟩⟩
    have hrel : (Cycle.sendWhole ⟨.encoded label l, rep, false⟩ a).after.release = [] :=
      Cycle.release_compressLast hcoded
    have hsent : (Cycle.sendWhole ⟨.encoded label l, rep, false⟩ a).events = _ := hev
    rw [hrel, hsent, List.append_nil]
    simp [Life.events, Life.coding, Life.feeding]

/-- **The response that is open**: none without a cycle, and else the one that is under way. -/
inductive Current : Option (Cycle σ) → Option Emission → Prop
  | none : Current none none
  | some {cy : Cycle σ} {r : Emission} : r.Under cy → Current (some cy) (some r)

end Emission

namespace Connection

variable {δ σ : Type} [Decision δ σ] [Compressor σ] {c c' : Connection δ σ}
  {ws taken : List Message} {es : List Event} {whole : List Emission} {begun : Option Emission}

/-- **The chronicle of a stage**: the responses so far, what was written and what was taken by then,
and the events. While the stage is active the responses are all of it, and one of them is begun just
while a cycle is open. -/
structure Chronicle (c : Connection δ σ) (ws taken : List Message) (es : List Event)
    (whole : List Emission) (begun : Option Emission) : Prop where
  complete : ∀ r ∈ whole, r.Whole
  incomplete : ∀ r ∈ begun, r.Begun
  written : ws = (Emission.total (whole ++ begun.toList)).written
  emitted : taken ++ c.outbound <+: (Emission.total (whole ++ begun.toList)).sent
  told : (Emission.total (whole ++ begun.toList)).events <+: es
  all : c.lifecycle = .active →
    Emission.total (whole ++ begun.toList) = ⟨ws, taken ++ c.outbound, es⟩
  current : c.lifecycle = .active → Emission.Current c.cycle begun

omit [Decision δ σ] in
theorem chronicle_new (d : δ) : (new d : Connection δ σ).Chronicle [] [] [] [] none :=
  ⟨nofun, nofun, rfl, List.prefix_rfl, List.prefix_rfl, fun _ => rfl, fun _ => .none⟩

omit [Decision δ σ] in
/-- A stage that has come to its end keeps its chronicle, though not all that was to be sent. -/
theorem chronicle_cut (h : c.Chronicle ws taken es whole begun) (hl : c'.lifecycle ≠ .active)
    (ho : c'.outbound <+: c.outbound) (fs : List Event) :
    c'.Chronicle ws taken (es ++ fs) whole begun := by
  refine ⟨h.complete, h.incomplete, h.written, ?_, ?_, fun ha => absurd ha hl,
    fun ha => absurd ha hl⟩
  · exact ((List.prefix_append_right_inj taken).2 ho).trans h.emitted
  · exact h.told.trans (List.prefix_append es fs)

omit [Decision δ σ] in
/-- What was written with success, what left for it and what it caused, goes to the response that is
begun, or starts one. -/
theorem chronicle_add (h : c.Chronicle ws taken es whole begun) (ha : c.lifecycle = .active)
    {m : Message} {ms : List Message} {fs : List Event} {whole' : List Emission}
    {begun' : Option Emission} (hwhole : ∀ r ∈ whole', r.Whole)
    (hcur : Emission.Current c'.cycle begun') (ho : c'.outbound = c.outbound ++ ms)
    (htotal : Emission.total (whole' ++ begun'.toList) =
      (Emission.total (whole ++ begun.toList)).add m ms fs) :
    c'.Chronicle (ws ++ [m]) taken (es ++ fs) whole' begun' := by
  have hall : Emission.total (whole' ++ begun'.toList) =
      ⟨ws ++ [m], taken ++ c'.outbound, es ++ fs⟩ := by
    rw [htotal, h.all ha, ho, ← List.append_assoc]
    rfl
  have hbegun : ∀ r ∈ begun', r.Begun := by
    generalize c'.cycle = o at hcur
    cases hcur with
    | none => exact nofun
    | some hr =>
      intro r' hr'
      obtain rfl := Option.some.inj hr'
      exact Emission.begun_of_under hr
  have hsent := congrArg Emission.sent hall
  have hevents := congrArg Emission.events hall
  refine ⟨hwhole, hbegun, ?_, ?_, ?_, fun _ => hall, fun _ => hcur⟩
  · exact (congrArg Emission.written hall).symm
  · exact hsent ▸ List.prefix_rfl
  · exact hevents ▸ List.prefix_rfl

omit [Decision δ σ] in
/-- One more whole response. -/
theorem whole_concat {r : Emission} (h : ∀ r ∈ whole, r.Whole) (hr : r.Whole) :
    ∀ x ∈ whole ++ [r], x.Whole := by
  intro x hx
  rcases List.mem_append.1 hx with hx | hx
  · exact h x hx
  · rwa [List.mem_singleton.1 hx]

omit [Decision δ σ] in
/-- A chunk goes on with the response that is begun, and its last one makes it whole. -/
theorem chronicle_chunk (h : c.Chronicle ws taken es whole begun) (hin : c.InOrder)
    (ha : c.lifecycle = .active) {cy : Cycle σ} (hc : c.cycle = some cy) {k : Chunk}
    {ms : List Message} (hs : (cy.send k).answer = .ok ms) :
    ∃ whole' begun', (c.sent (cy.send k).after ms).Chronicle (ws ++ [.chunk k]) taken
      (es ++ ((cy.send k).events ++
        if (cy.send k).after.finished then (cy.send k).after.release else [])) whole' begun' := by
  have hcur := h.current ha
  rw [hc] at hcur
  cases hcur with
  | @some _ r hr =>
    cases hk : k.last with
    | false =>
      have hfin : (cy.send k).after.finished = false := by
        rw [Cycle.finished_send_piece hk, hin.unfinished cy hc]
      have hcur' : Emission.Current (c.sent (cy.send k).after ms).cycle
          (some (r.add (.chunk k) ms (cy.send k).events)) := by
        rw [sent, hfin]
        exact .some (Emission.under_piece hr hk hs)
      rw [hfin, if_neg Bool.false_ne_true, List.append_nil]
      exact ⟨whole, _, chronicle_add h ha h.complete hcur' rfl
        (Emission.total_concat_add whole r _ _ _)⟩
    | true =>
      have hfin := Cycle.finished_send hs hk
      have hcur' : Emission.Current (c.sent (cy.send k).after ms).cycle none := by
        rw [sent, hfin]
        exact .none
      rw [Cycle.release_send hs hk, ite_self, List.append_nil]
      refine ⟨whole ++ [r.add (.chunk k) ms (cy.send k).events], none,
        chronicle_add h ha (whole_concat h.complete (Emission.whole_of_last hr hk hs)) hcur' rfl ?_⟩
      rw [Option.toList_none, List.append_nil]
      exact Emission.total_concat_add whole r _ _ _

/-- A write that is accepted goes on with the chronicle; a fault ends it. -/
theorem chronicle_write (h : c.Chronicle ws taken es whole begun) (hin : c.InOrder)
    (m : Message) :
    ∃ whole' begun', (c.write m).after.Chronicle
      (ws ++ accepted [.write m] [(c.perform (.write m)).answer]) taken
      (es ++ (c.write m).events) whole' begun' := by
  have hw := c.wrote m
  rw [perform, Step.map]
  generalize c.write m = w at hw
  have hcut (c' : Connection δ σ) (fs : List Event) (hl : c'.lifecycle ≠ .active)
      (ho : c'.outbound = []) : c'.Chronicle (ws ++ []) taken (es ++ fs) whole begun := by
    rw [List.append_nil]
    exact chronicle_cut h hl (by rw [ho]; exact List.nil_prefix) fs
  -- where a response starts no other one is begun
  have hnone (ha : c.lifecycle = .active) (hc : c.cycle = none) : begun = none := by
    have hcur := h.current ha
    rw [hc] at hcur
    cases hcur
    rfl
  cases hw with
  | terminated hn =>
    rw [← List.append_nil ws, ← List.append_nil es] at h
    exact ⟨whole, begun, h⟩
  | overlaps | unmatched | headless | chunkFailed | aggregateFailed =>
    exact ⟨whole, begun, hcut _ _ not_active_abandon rfl⟩
  | @head hd r rest n ha hc hb hn =>
    obtain rfl := hnone ha hc
    have hf : n.cycle.Fresh n.events := hn ▸ Negotiator.fresh_negotiate ..
    refine ⟨whole, some _, chronicle_add h ha h.complete (.some (Emission.under_head hf hd)) rfl ?_⟩
    rw [Option.toList_none, List.append_nil]
    exact Emission.total_concat whole _ _ _
  | chunk ha hc hs => exact chronicle_chunk h hin ha hc hs
  | @aggregate a r rest n ms ha hc hb hn hs =>
    obtain rfl := hnone ha hc
    have hf : n.cycle.Fresh n.events := hn ▸ Negotiator.fresh_negotiate ..
    have hr := Emission.whole_of_aggregate hf hs
    refine ⟨_, none, chronicle_add h ha (whole_concat h.complete hr) (hc ▸ .none) rfl ?_⟩
    rw [Option.toList_none, List.append_nil, List.append_nil]
    exact Emission.total_concat whole _ _ _

/-- Every operation goes on with the chronicle. -/
theorem chronicle_perform (h : c.Chronicle ws taken es whole begun) (hin : c.InOrder)
    (op : Operation) :
    ∃ whole' begun', (c.perform op).after.Chronicle
      (ws ++ accepted [op] [(c.perform op).answer])
      (taken ++ takenOf [(c.perform op).answer]) (es ++ (c.perform op).events) whole' begun' := by
  cases haside : op.isAside with
  | true =>
    obtain ⟨hl, hc, ho, he, -⟩ := perform_aside (c := c) haside
    rw [accepted_of_message? (Operation.isAside_iff.1 haside).1, he, List.append_nil,
      List.append_nil]
    refine ⟨whole, begun, h.complete, h.incomplete, h.written, ?_, h.told, fun ha => ?_, ?_⟩
    · rw [List.append_assoc, ho]
      exact h.emitted
    · rw [List.append_assoc, ho]
      exact h.all (hl ▸ ha)
    · rw [hl, hc]
      exact h.current
  | false =>
    cases op with
    | record r | read | drain => cases haside
    | write m =>
      obtain ⟨whole', begun', h'⟩ := chronicle_write h hin m
      refine ⟨whole', begun', ?_⟩
      rw [show takenOf [(c.perform (.write m)).answer] = [] from takenOf_map_nil _,
        List.append_nil]
      exact h'
    | deactivate =>
      refine ⟨whole, begun, ?_⟩
      rw [accepted_of_message? rfl,
        show takenOf [(c.perform .deactivate).answer] = [] from takenOf_map_nil _,
        List.append_nil, List.append_nil]
      exact chronicle_cut h (not_active_deactivate c) (outbound_deactivate c) _

/-- **A run goes on with the chronicle**, operation by operation. -/
theorem chronicle_run (h : c.Chronicle ws taken es whole begun) (hin : c.InOrder)
    (ops : List Operation) :
    ∃ whole' begun', (c.run ops).last.Chronicle (ws ++ accepted ops (c.run ops).answers)
      (taken ++ takenOf (c.run ops).answers) (es ++ (c.run ops).events) whole' begun' := by
  induction ops generalizing c ws taken es whole begun with
  | nil =>
    rw [← List.append_nil ws, ← List.append_nil taken, ← List.append_nil es] at h
    exact ⟨whole, begun, h⟩
  | cons op ops ih =>
    obtain ⟨whole', begun', h'⟩ := chronicle_perform h hin op
    obtain ⟨whole'', begun'', h''⟩ := ih h' (inOrder_perform hin op)
    refine ⟨whole'', begun'', ?_⟩
    rw [List.append_assoc, ← accepted_cons, List.append_assoc, ← takenOf_cons,
      List.append_assoc] at h''
    exact h''

/-- **What is emitted in a run is a sequence of responses.** The messages that were accepted are
those written for some whole responses and at most one that is begun, in order. What was taken and
what is still to be sent are what was sent for them, or a front of that once the stage is no longer
active. While it is, one response is begun just while a cycle is open. -/
theorem wellFormed_of_run (d : δ) (ops : List Operation) :
    let h := (new d : Connection δ σ).run ops
    ∃ (whole : List Emission) (begun : Option Emission),
      let responses := whole ++ begun.toList
      (∀ r ∈ whole, r.Whole) ∧ (∀ r ∈ begun, r.Begun) ∧
        accepted ops h.answers = responses.flatMap Emission.written ∧
        h.taken ++ h.last.outbound <+: responses.flatMap Emission.sent ∧
        responses.flatMap Emission.events <+: h.events ∧
        (h.last.lifecycle = .active →
          h.taken ++ h.last.outbound = responses.flatMap Emission.sent ∧
          h.events = responses.flatMap Emission.events ∧
          begun.isSome = h.last.cycle.isSome) := by
  intro h
  obtain ⟨whole, begun, hch⟩ := chronicle_run (chronicle_new (σ := σ) d) (inOrder_new d) ops
  simp only [List.nil_append] at hch
  refine ⟨whole, begun, hch.complete, hch.incomplete, hch.written, hch.emitted, hch.told,
    fun ha => ?_⟩
  have hall := hch.all ha
  refine ⟨(congrArg Emission.sent hall).symm, (congrArg Emission.events hall).symm, ?_⟩
  have hcur := hch.current ha
  generalize h.last.cycle = o at hcur ⊢
  cases hcur <;> rfl

end Connection

end ContentCoding
