import ContentCoding.Proofs.StoredStreams
import ContentCoding.Proofs.Traffic

/-!
# Empty pieces of a body

Every piece of a coded body goes to the engine, an empty one too. An engine that refuses empty
input so fails the response, and with it the connection.

* `feed_filled`: input that is not empty is always taken.
* `send_cases`: a chunk of a coded response is sent where the engine takes its piece.
* `answers_of_streams`: a body is accepted if each of its empty pieces is taken, and else starves
  its engine.
* `accepted_iff_taken`: **when a streamed response that is coded can be written.**
-/

namespace ContentCoding

open Engine

/-- **Operations that write the body of a streamed response**, in these pieces: chunks of which the
last one is marked so and no other is. In between and behind them requests may come in, and
messages may be taken. -/
inductive Streams : List Operation → List Octets → Prop
  | last {k : Chunk} {ops : List Operation} : k.last = true → (∀ op ∈ ops, op.isAside = true) →
      Streams (.write (.chunk k) :: ops) [k.payload]
  | piece {k : Chunk} {ops : List Operation} {pieces : List Octets} : k.last = false →
      Streams ops pieces → Streams (.write (.chunk k) :: ops) (k.payload :: pieces)
  | aside {op : Operation} {ops : List Operation} {pieces : List Octets} : op.isAside = true →
      Streams ops pieces → Streams (op :: ops) pieces

/-- Whether a coding takes each of these pieces, the first of them or not being the first of all. -/
def takesAll (coding : Coding) : Bool → List Octets → Bool
  | _, [] => true
  | first, p :: ps => (p != [] || takesEmpty coding first) && takesAll coding false ps

/-- **Whether a coding takes a body in these pieces.** Zstd and brotli take every piece, gzip none
that is empty but the first, deflate none that is empty. -/
def Coding.Takes (coding : Coding) (pieces : List Octets) : Prop :=
  match coding with
  | .zstd | .brotli => True
  | .gzip => [] ∉ pieces.tail
  | .deflate => [] ∉ pieces

theorem takesAll_iff (coding : Coding) (first : Bool) (pieces : List Octets) :
    takesAll coding first pieces = true ↔
      match coding with
      | .zstd | .brotli => True
      | .gzip => [] ∉ if first then pieces.tail else pieces
      | .deflate => [] ∉ pieces := by
  induction pieces generalizing first with
  | nil => cases coding <;> cases first <;> simp [takesAll]
  | cons p ps ih =>
    have hp : [] ∉ p :: ps ↔ p ≠ [] ∧ [] ∉ ps :=
      ⟨fun h => ⟨Ne.symm (List.ne_of_not_mem_cons h), List.not_mem_of_not_mem_cons h⟩,
        fun h => List.not_mem_cons_of_ne_of_not_mem (Ne.symm h.1) h.2⟩
    rw [takesAll, Bool.and_eq_true, ih false]
    cases coding <;> cases first <;> simp [takesEmpty, hp, -List.mem_cons]

theorem takes_iff {coding : Coding} {pieces : List Octets} :
    coding.Takes pieces ↔ takesAll coding true pieces = true := by
  rw [takesAll_iff]
  cases coding <;> rfl

/-- Whether a coding takes a piece behind these ones. -/
def takesPiece (coding : Coding) (pieces : List Octets) (input : Octets) : Bool :=
  input != [] || takesEmpty coding pieces.isEmpty

section engine

variable {ε : Type} [Engine ε] {engine : Coding → ε} {coding : Coding} {pieces : List Octets}
  {given input out : Octets} {e : ε}

/-- **Input that is not empty is taken.** -/
theorem feed_filled (hs : GetsOn engine) (h : Transcript (engine coding) .taking pieces given e)
    (hi : input ≠ []) : ∃ out, (feed e input).1 = .ok out := by
  induction e, input using feed.induct generalizing pieces given with
  | case1 e input c he =>
    obtain ⟨r, hr⟩ := hs.filled h hi
    cases he.symm.trans hr
  | case2 e input r he hr => exact ⟨_, by rw [feed_of_done he hr]⟩
  | case3 e input r he hr ih =>
    -- the loop goes on only where input is left, so that it never feeds an empty piece itself
    have hrest : input.drop r.taken ≠ [] := fun hn => hr (List.drop_eq_nil_iff.1 hn)
    obtain ⟨out, hout⟩ := ih (h.encode he) hrest
    exact ⟨r.written ++ out, by rw [feed_of_more he hr, hout]; rfl⟩

/-- What becomes of a piece: it is taken, or it is empty and starves the engine. -/
theorem feed_cases (hs : TakesInput engine) (h : Transcript (engine coding) .taking pieces given e)
    (input : Octets) :
    (takesPiece coding pieces input = true ∧ ∃ out, (feed e input).1 = .ok out) ∨
      takesPiece coding pieces input = false ∧ (feed e input).1 = .error starved := by
  cases input with
  | cons b bs => exact .inl ⟨rfl, feed_filled hs.getsOn h (by simp)⟩
  | nil =>
    cases ht : takesEmpty coding pieces.isEmpty with
    | true =>
      obtain ⟨r, hr⟩ := hs.empty h ht
      exact .inl ⟨ht, r.written, by rw [feed_of_done hr (Nat.zero_le _)]⟩
    | false => exact .inr ⟨ht, by rw [feed_of_error (hs.starves h ht)]⟩

/-- What an engine is asked for is done. -/
theorem drain_ok (hs : GetsOn engine) {mode : Mode} {d : Demand}
    (h : Transcript (engine coding) mode pieces given e) (hm : mode = .taking ∨ mode = .amid d)
    (hp : d = .flush → pieces ≠ []) : ∃ out, (drain d e).1 = .ok out := by
  induction e using @drain.induct ε _ d generalizing given mode with
  | case1 e c he =>
    obtain ⟨o, ho⟩ := hs.asked h hm hp
    cases he.symm.trans ho
  | case2 e o he hc => exact ⟨_, by rw [drain_of_done he hc]⟩
  | case3 e o he hc ih =>
    have ht := h.ask hm hp he
    rw [if_neg hc] at ht
    obtain ⟨out, hout⟩ := ih ht (.inr rfl)
    exact ⟨o.written ++ out, by rw [drain_of_more he hc, hout]; rfl⟩

/-- A compressor takes what its engine takes. -/
theorem compress_of_fed (hs : GetsOn engine) {c : StreamCompressor ε}
    (h : c.Running (engine coding) pieces given) (he : c.engine = some e)
    (hf : (feed e input).1 = .ok out) : ∃ out, (c.compress input).1 = .ok out := by
  obtain ⟨hfin, e', he', ht⟩ := h
  obtain rfl : e = e' := Option.some.inj (he.symm.trans he')
  obtain ⟨taken, hne, -, hfed⟩ := feed_transcript ht hf
  have hflush : ∃ more, (c.flushing (feed e input).2).1 = .ok more := by
    unfold StreamCompressor.flushing
    split
    · exact drain_ok hs hfed (.inl rfl) fun _ => by simp [hne]
    · exact ⟨[], rfl⟩
  obtain ⟨more, hmore⟩ := hflush
  exact ⟨out ++ more, by rw [StreamCompressor.compress_of_ok hfin he hf, hmore]; rfl⟩

/-- A compressor takes a piece as its engine does. -/
theorem compress_cases (hs : TakesInput engine) {c : StreamCompressor ε}
    (h : c.Running (engine coding) pieces given) (input : Octets) :
    (takesPiece coding pieces input = true ∧ ∃ out, (c.compress input).1 = .ok out) ∨
      takesPiece coding pieces input = false ∧ (c.compress input).1 = .error starved := by
  obtain ⟨hf, e, he, ht⟩ := id h
  rcases feed_cases hs ht input with ⟨htakes, first, hfirst⟩ | ⟨hnot, hstarved⟩
  · exact .inl ⟨htakes, compress_of_fed hs.getsOn h he hfirst⟩
  · exact .inr ⟨hnot, by rw [StreamCompressor.compress_of_error hf he hstarved]⟩

/-- A compressor at work can be finished. -/
theorem finish_ok (hs : GetsOn engine) {c : StreamCompressor ε}
    (h : c.Running (engine coding) pieces given) : ∃ out, c.finish.1 = .ok out := by
  obtain ⟨hf, e, he, ht⟩ := h
  rw [StreamCompressor.answer_finish hf he]
  exact drain_ok hs ht (.inl rfl) nofun

/-- **A chunk of a coded response** can be sent where the engine takes its piece. -/
theorem send_cases (hs : TakesInput engine) {cy : Cycle (StreamCompressor ε)}
    (h : cy.Running (engine coding) pieces given) (k : Chunk) :
    (takesPiece coding pieces k.payload = true ∧ ∃ ms, (cy.send k).answer = .ok ms) ∨
      takesPiece coding pieces k.payload = false ∧
        (cy.send k).answer = .error (.compression starved) := by
  obtain ⟨label, l, ht, hl, hr⟩ := id h
  have hcomp := (Cycle.answers_of_encoded ht hl hr.1 k.payload).1
  unfold Cycle.send
  rw [if_neg (by simp [Cycle.isSkip_of_encoded ht])]
  rcases compress_cases hs hr k.payload with ⟨htakes, out, hout⟩ | ⟨hnot, hstarved⟩
  · refine .inl ⟨htakes, ?_⟩
    rw [hout] at hcomp
    split
    · rcases Cycle.compressLast_cases cy k.payload with ⟨f, hfail, -⟩ | ⟨first, hfirst, hlast⟩
      · cases hcomp.symm.trans hfail
      · obtain ⟨taken, -, -, label', l', ht', hl', hr'⟩ := Cycle.running_compress h hfirst
        obtain ⟨rest, hrest⟩ := finish_ok hs.getsOn hr'
        have hfin := (Cycle.answers_of_encoded ht' hl' hr'.1 []).2
        rw [hrest] at hfin
        exact ⟨_, by rw [Step.map, hlast, hfin]; rfl⟩
    · exact ⟨_, by rw [Step.map, hcomp]; rfl⟩
  · refine .inr ⟨hnot, ?_⟩
    rw [hstarved] at hcomp
    split
    · rcases Cycle.compressLast_cases cy k.payload with ⟨f, hfail, hlast⟩ | ⟨first, hfirst, -⟩
      · cases hcomp.symm.trans hfail
        rw [Step.map, hlast]
        rfl
      · cases hcomp.symm.trans hfirst
    · rw [Step.map, hcomp]
      rfl

end engine

namespace Connection

variable {ε : Type} [Engine ε] {s : Selector ε} {c : Connection (Selector ε) (StreamCompressor ε)}

/-- **A body is accepted** if its coding takes each of its pieces, and starves the engine if not. -/
theorem answers_of_streams (hs : TakesInput s.engine) {coding : Coding} {ops : List Operation}
    {body taken : List Octets} {given : Octets} {cy : Cycle (StreamCompressor ε)}
    (hb : Streams ops body) (ha : c.lifecycle = .active) (hc : c.cycle = some cy)
    (hr : cy.Running (s.engine coding) taken given) (hf : cy.finished = false) :
    (takesAll coding taken.isEmpty body = true →
        ∀ a ∈ (c.run ops).answers, ∃ ms, a = .ok ms) ∧
      (takesAll coding taken.isEmpty body = false →
        .error (.compression starved) ∈ (c.run ops).answers) := by
  -- the stage is active with its cycle at work; which piece is the first is told by `taken`
  induction hb generalizing c cy taken given with
  | @aside op ops body hop _ ih =>
    obtain ⟨hl, hcy, -, -, hok⟩ := perform_aside (c := c) hop
    obtain ⟨hall, hnot⟩ := ih (hl.trans ha) (hcy.trans hc) hr hf
    refine ⟨fun ht a hm => ?_, fun ht => List.mem_cons_of_mem _ (hnot ht)⟩
    rcases List.mem_cons.1 hm with rfl | hm
    · exact hok
    · exact hall ht a hm
  | @last k ops hk hops =>
    rw [takesAll, takesAll, Bool.and_true, ← takesPiece]
    rcases send_cases hs hr k with ⟨ht, ms, hms⟩ | ⟨ht, hfail⟩
    · rw [ht]
      refine ⟨fun _ a hm => ?_, fun hno => absurd hno.symm Bool.false_ne_true⟩
      rcases List.mem_cons.1 hm with rfl | hm
      · exact ⟨[], by rw [perform, Step.map, write_of_sent ha hc hms]; rfl⟩
      · obtain ⟨-, -, -, -, hok⟩ := run_aside (c := (c.perform (.write (.chunk k))).after) hops
        exact hok a hm
    · rw [ht]
      refine ⟨fun hno => absurd hno Bool.false_ne_true, fun _ => List.mem_cons.2 (.inl ?_)⟩
      rw [perform, Step.map, write_of_unsent ha hc hfail]
      rfl
  | @piece k ops body hk _ ih =>
    rw [takesAll, ← takesPiece]
    rcases send_cases hs hr k with ⟨ht, ms, hms⟩ | ⟨ht, hfail⟩
    · have hw := write_of_sent ha hc hms
      obtain ⟨more, out, hne, -, -, hrun⟩ := Cycle.running_send hr hk hms
      have hfin : (cy.send k).after.finished = false := by rw [Cycle.finished_send_piece hk, hf]
      have hcy : (c.write (.chunk k)).after.cycle = some (cy.send k).after := by
        simp [hw, sent, hfin]
      have hact : (c.write (.chunk k)).after.lifecycle = .active := by
        rw [hw]
        exact ha
      -- the pieces that follow are not the first any more, even behind an empty one
      have hmore : (taken ++ more).isEmpty = false := by simp [hne]
      obtain ⟨hall, hnot⟩ := ih hact hcy hrun hfin
      rw [hmore] at hall hnot
      rw [ht, Bool.true_and]
      refine ⟨fun hrest a hm => ?_, fun hrest => List.mem_cons_of_mem _ (hnot hrest)⟩
      rcases List.mem_cons.1 hm with rfl | hm
      · exact ⟨[], by rw [perform, Step.map, hw]; rfl⟩
      · exact hall hrest a hm
    · rw [ht, Bool.false_and]
      refine ⟨fun hno => absurd hno Bool.false_ne_true, fun _ => List.mem_cons.2 (.inl ?_)⟩
      rw [perform, Step.map, write_of_unsent ha hc hfail]
      rfl

/-- A head that is coded has started a transcript of its coding's engine. -/
theorem running_of_label (s : Selector ε) (before : List Operation) {head : Head}
    {coding : Coding} {cy : Cycle (StreamCompressor ε)}
    (hc : (((new s).run before).last.write (.head head)).after.cycle = some cy)
    (hl : cy.label? = some (Octets.ofString coding.label)) :
    let w := ((new s).run before).last.write (.head head)
    w.answer = .ok () ∧ w.after.lifecycle = .active ∧ cy.Running (s.engine coding) [] [] ∧
      cy.finished = false := by
  have ho : ((new s).run before).last.InOrder := inOrder_run (inOrder_new s) before
  have hd : ((new s).run before).last.negotiator.decision = s := decision_run (new s) before
  generalize ((new s).run before).last = c at hc ho hd ⊢
  have hw := c.wrote (.head head)
  generalize c.write (.head head) = w at hw hc ⊢
  cases hw with
  | terminated ha =>
    refine absurd (ho.active ?_) ha
    rw [show c.cycle = some cy from hc]
    nofun
  | overlaps | unmatched => cases hc
  | @head _ r rest n ha _ _ hn =>
    obtain rfl := Option.some.inj hc
    subst hn
    refine ⟨rfl, ha, ?_, Negotiator.not_finished_negotiate⟩
    rcases c.negotiator.negotiate_cases head r .streamed with hskip | ⟨coding', -, hlabel, hrun⟩
    · rw [negotiated, Cycle.label?_of_isSkip hskip] at hl
      cases hl
    · -- a label names one coding
      have hsame := congrArg Coding.ofLabel? (Option.some.inj (hl.symm.trans hlabel))
      rw [Coding.ofLabel?_label, Coding.ofLabel?_label] at hsame
      obtain rfl := Option.some.inj hsame
      rwa [hd] at hrun

/-- **When a streamed response that is coded can be written**, whatever the connection did before.
Its head is accepted. Its body is accepted just where the coding takes it in the pieces in which
it is written: an empty piece starves deflate, and gzip unless it is the first one. -/
theorem accepted_iff_taken (s : Selector ε) (hs : TakesInput s.engine) (before : List Operation)
    {head : Head} {coding : Coding} {cy : Cycle (StreamCompressor ε)}
    (hc : (((new s).run before).last.write (.head head)).after.cycle = some cy)
    (hl : cy.label? = some (Octets.ofString coding.label)) {ops : List Operation}
    {body : List Octets} (hb : Streams ops body) :
    let w := ((new s).run before).last.write (.head head)
    w.answer = .ok () ∧
      ((∀ a ∈ (w.after.run ops).answers, ∃ ms, a = .ok ms) ↔ coding.Takes body) ∧
      (¬ coding.Takes body → .error (.compression starved) ∈ (w.after.run ops).answers) := by
  intro w
  obtain ⟨hok, ha, hr, hf⟩ := running_of_label s before hc hl
  obtain ⟨hall, hnot⟩ := answers_of_streams hs hb ha hc hr hf
  have hstarved : ¬ coding.Takes body →
      .error (.compression starved) ∈ (w.after.run ops).answers := by
    intro hn
    rw [takes_iff, Bool.not_eq_true] at hn
    exact hnot hn
  refine ⟨hok, ⟨fun hans => ?_, fun ht => hall (takes_iff.1 ht)⟩, hstarved⟩
  rcases Classical.em (coding.Takes body) with ht | hn
  · exact ht
  · obtain ⟨ms, hms⟩ := hans _ (hstarved hn)
    cases hms

section stored

open Stored

/-- A body in an empty piece and another one is accepted by gzip. -/
theorem accepted_of_empty_first :
    let before : List Operation := [.record ⟨.get, some "gzip"⟩]
    let ops : List Operation :=
      [.write (.chunk { payload := [] }), .write (.chunk { payload := [1], last := true })]
    TakesInput storing.engine ∧ Streams ops [[], [1]] ∧
      ∀ a ∈ ((((new storing).run before).last.write (.head {})).after.run ops).answers,
        ∃ ms, a = .ok ms := by
  intro before ops
  have hb : Streams ops [[], [1]] := .piece rfl (.last rfl nofun)
  have hc : (((new storing).run before).last.write (.head {})).after.cycle =
      some ⟨.encoded (Octets.ofString "gzip") ⟨0, .start (Encoder.start .gzip) false, false⟩,
        .streamed, false⟩ := by decide
  have hl : (⟨.encoded (Octets.ofString "gzip") ⟨0, .start (Encoder.start .gzip) false, false⟩,
      .streamed, false⟩ : Cycle (StreamCompressor Encoder)).label? =
        some (Octets.ofString Coding.gzip.label) := rfl
  have h := accepted_iff_taken storing Encoder.takesInput_start before hc hl hb
  exact ⟨Encoder.takesInput_start, hb, h.2.1.2 (by simp [Coding.Takes])⟩

/-- An empty body, which is one empty last chunk, is refused by deflate. -/
theorem not_accepted_of_empty_body :
    let before : List Operation := [.record ⟨.get, some "deflate"⟩]
    let ops : List Operation := [.write (.chunk { payload := [], last := true })]
    let w := ((new storing).run before).last.write (.head {})
    TakesInput storing.engine ∧ Streams ops [[]] ∧
      w.after.cycle.bind Cycle.label? = some (Octets.ofString Coding.deflate.label) ∧
      ¬ ∀ a ∈ (w.after.run ops).answers, ∃ ms, a = .ok ms := by
  intro before ops w
  have hb : Streams ops [[]] := .last rfl nofun
  have hc : w.after.cycle = some ⟨.encoded (Octets.ofString "deflate")
      ⟨0, .start (Encoder.start .deflate) false, false⟩, .streamed, false⟩ := by decide
  have hl : w.after.cycle.bind Cycle.label? = some (Octets.ofString Coding.deflate.label) := by
    rw [hc]
    rfl
  refine ⟨Encoder.takesInput_start, hb, hl, fun hans => ?_⟩
  rw [hc] at hl
  obtain ⟨-, ha, hr, hf⟩ := running_of_label storing before hc hl
  have hstarved := (answers_of_streams Encoder.takesInput_start hb ha hc hr hf).2 (by decide)
  obtain ⟨ms, hms⟩ := hans _ hstarved
  cases hms

end stored

end Connection

end ContentCoding
