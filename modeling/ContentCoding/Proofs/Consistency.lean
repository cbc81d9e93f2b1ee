import ContentCoding.Proofs.Ending

/-!
# A stage is consistent

What can be relied on at any time, whatever was done with a stage: of the response that is under
way, of the compressors that are open, and of a stage that came to its end.

* `atWork_of_accounts`: a compressor that takes pieces was opened, and nothing else was asked of it.
* `isOpen_iff_of_accounts`: no other compressor is open then.
* `wellKept_run`: only a streamed response is ever under way, and a fault leaves nothing to be sent.
* `consistent_of_run`: **a stage is consistent**, after any run.
-/

namespace ContentCoding

/-- The events that concern one compressor. -/
def callsOf (id : Nat) (es : List Event) : List Event :=
  es.filter fun e => e.compressor? = some id

/-- **A compressor is open** after these events: it was opened, and not closed since. -/
def IsOpen (id : Nat) (es : List Event) : Prop := .opened id ∈ es ∧ closings id es = 0

/-- **A compressor at work** after these events: it was opened, and since then it has taken pieces.
None of them failed, and it was asked neither to finish nor to close. -/
structure AtWork (id : Nat) (es : List Event) : Prop where
  taking : ∃ pieces : List (Octets × Except Cause Octets),
    (∀ p ∈ pieces, ∃ out, p.2 = .ok out) ∧ callsOf id es = .opened id :: Life.feeding id pieces
  unfinished : ∀ answer, .finished id answer ∉ es
  unclosed : ∀ answer, .closed id answer ∉ es

section calls

variable {id n : Nat} {es : List Event} {e : Event} {lives : List Life}

theorem callsOf_append (id : Nat) (es fs : List Event) :
    callsOf id (es ++ fs) = callsOf id es ++ callsOf id fs := by
  unfold callsOf
  exact List.filter_append es fs

theorem callsOf_calls (id : Nat) (es : List Event) : callsOf id (calls es) = callsOf id es := by
  unfold callsOf calls
  rw [List.filter_filter]
  refine List.filter_congr fun e _ => ?_
  cases e.compressor? <;> simp

theorem mem_callsOf : e ∈ callsOf id es ↔ e ∈ es ∧ e.compressor? = some id := by
  simp [callsOf]

/-- All events of a life concern its own compressor. -/
theorem compressor?_of_mem_life {l : Life} (h : e ∈ l.events) : e.compressor? = some l.id := by
  simp only [Life.events, Life.feeding, Life.finishing, List.mem_cons, List.mem_append,
    List.mem_map, Option.mem_toList, List.not_mem_nil, or_false] at h
  rcases h with rfl | ((⟨p, -, rfl⟩ | ⟨answer, -, rfl⟩) | rfl) <;> rfl

/-- A compressor that had no life before was not called in one. -/
theorem callsOf_lives (hid : id ∉ lives.map Life.id) :
    callsOf id (lives.flatMap Life.events) = [] := by
  refine List.filter_eq_nil_iff.2 fun e he => ?_
  obtain ⟨l, hl, hel⟩ := List.mem_flatMap.1 he
  have hne : l.id ≠ id := fun h => hid (List.mem_map.2 ⟨l, hl, h⟩)
  rw [compressor?_of_mem_life hel]
  simpa using hne

/-- All that is done at the opening and for the pieces concerns that compressor. -/
theorem callsOf_feeding (id : Nat) (pieces : List (Octets × Except Cause Octets)) :
    callsOf id (.opened id :: Life.feeding id pieces) = .opened id :: Life.feeding id pieces := by
  refine List.filter_eq_self.2 fun e he => ?_
  rcases List.mem_cons.1 he with rfl | he
  · exact decide_eq_true rfl
  · obtain ⟨p, -, rfl⟩ := List.mem_map.1 he
    exact decide_eq_true rfl

/-- **A compressor that takes pieces is at work.** -/
theorem atWork_of_accounts (h : Accounts n (.working id) es) : AtWork id es := by
  obtain ⟨lives, fs, hids, hb, hcalls⟩ := h.begun
  cases hb with
  | working pieces hok =>
    -- the lives before have smaller numbers
    have hnew : lives.length ∉ lives.map Life.id := by
      rw [hids]
      exact List.not_mem_range_self
    have htaking : callsOf lives.length es =
        .opened lives.length :: Life.feeding lives.length pieces := by
      rw [← callsOf_calls, hcalls, callsOf_append, callsOf_lives hnew, callsOf_feeding,
        List.nil_append]
    have honly {e : Event} (he : e ∈ es) (hc : e.compressor? = some lives.length) :
        e = .opened lives.length ∨ ∃ p ∈ pieces, .compressed lives.length p.1 p.2 = e := by
      have hmem := mem_callsOf.2 ⟨he, hc⟩
      rw [htaking] at hmem
      exact (List.mem_cons.1 hmem).imp_right List.mem_map.1
    refine ⟨⟨pieces, hok, htaking⟩, fun answer he => ?_, fun answer he => ?_⟩
    · rcases honly he rfl with h | ⟨p, -, h⟩ <;> cases h
    · rcases honly he rfl with h | ⟨p, -, h⟩ <;> cases h

/-- **While a compressor takes pieces no other one is open.** -/
theorem isOpen_iff_of_accounts {i : Nat} (h : Accounts n (.working id) es) :
    IsOpen i es ↔ i = id := by
  constructor
  · rintro ⟨hopened, hnone⟩
    -- once this one is closed too, each that was opened was closed once
    have hclosed : Accounts n .idle (es ++ [.closed id (.ok ())]) := h.closed (.inl rfl)
    obtain ⟨lives, hids, hcalls⟩ := hclosed.lives
    have hone := closings_eq_one hids hcalls (List.mem_append_left _ hopened)
    rw [closings_append, hnone, Nat.zero_add] at hone
    by_contra hne
    have hzero : closings i [.closed id (.ok ())] = 0 := by simp [closings, Ne.symm hne]
    omega
  · rintro rfl
    exact closings_eq_zero h

/-- **With nothing held no compressor is open.** -/
theorem not_isOpen_of_accounts (h : Accounts n .idle es) : ¬ IsOpen id es := by
  rintro ⟨hopened, hnone⟩
  obtain ⟨lives, hids, hcalls⟩ := h.lives
  have hone := closings_eq_one hids hcalls hopened
  omega

end calls

namespace Cycle

variable {σ : Type}

/-- **A body that passes**: for a reason, with no label and no compressor. -/
structure PassesFor (cy : Cycle σ) (reason : SkipReason) : Prop where
  skipped : cy.isSkip = true
  reason : cy.reason? = some reason
  unlabelled : cy.label? = none
  unleased : cy.lease? = none

/-- **A body that is coded** by a compressor, after these events: with a label and with no reason to
pass. The compressor is open and at work. -/
structure CodedBy (cy : Cycle σ) (l : Lease σ) (es : List Event) : Prop where
  coded : cy.isSkip = false
  labelled : ∃ label, cy.label? = some label
  unreasoned : cy.reason? = none
  leased : cy.lease? = some l
  unclosed : l.closed = false
  atWork : AtWork l.id es

/-- **A response under way**, after these events. Its body comes in pieces of which more are to
follow. It passes for a reason, or a compressor is at work on it. -/
structure UnderWay (cy : Cycle σ) (es : List Event) : Prop where
  streamed : cy.representation = .streamed
  unfinished : cy.finished = false
  unclosed : cy.isClosed = false
  treated : (∃ reason, cy.PassesFor reason) ∨ ∃ l, cy.CodedBy l es

section accounts

variable {cy : Cycle σ} {n : Nat} {es : List Event}

theorem custody_of_encoded {label : Octets} {l : Lease σ} {rep : Representation} {fin : Bool}
    (hl : l.closed = false) : custody ⟨.encoded label l, rep, fin⟩ = .working l.id := by
  simp [custody, hl]

/-- A response that is open in the account passes, or its compressor is at work. -/
theorem treated_of_accounts (hc : cy.isClosed = false) (h : Accounts n cy.custody es) :
    (∃ reason, cy.PassesFor reason) ∨ ∃ l, cy.CodedBy l es := by
  obtain ⟨treatment, rep, fin⟩ := cy
  cases treatment with
  | skipped reason => exact .inl ⟨reason, rfl, rfl, rfl, rfl⟩
  | encoded label l =>
    have hl : l.closed = false := hc
    rw [custody_of_encoded hl] at h
    exact .inr ⟨l, rfl, ⟨label, rfl⟩, rfl, rfl, hl, atWork_of_accounts h⟩

/-- The compressor that is open is the one of the response, if that is coded. -/
theorem isOpen_iff_of_custody (hc : cy.isClosed = false) (h : Accounts n cy.custody es) (id : Nat) :
    IsOpen id es ↔ ∃ l, cy.lease? = some l ∧ l.id = id := by
  obtain ⟨treatment, rep, fin⟩ := cy
  cases treatment with
  | skipped reason =>
    have hidle : ¬ IsOpen id es := not_isOpen_of_accounts h
    simpa [lease?] using hidle
  | encoded label l =>
    have hl : l.closed = false := hc
    rw [custody_of_encoded hl] at h
    rw [isOpen_iff_of_accounts h]
    simp [lease?, eq_comm]

end accounts

variable [Compressor σ]

theorem representation_compress (cy : Cycle σ) (input : Octets) :
    (cy.compress input).after.representation = cy.representation := by
  unfold compress
  split <;> rfl

theorem representation_finish (cy : Cycle σ) :
    cy.finish.after.representation = cy.representation := by
  unfold finish
  split <;> rfl

/-- A body goes on in the way in which it began. -/
theorem representation_send (cy : Cycle σ) (k : Chunk) :
    (cy.send k).after.representation = cy.representation := by
  unfold send
  split
  · rfl
  · split
    · rcases compressLast_cases cy k.payload with ⟨f, -, hl⟩ | ⟨out, -, hl⟩
      · rw [hl]
        exact representation_compress cy k.payload
      · rw [hl]
        exact (representation_finish _).trans (representation_compress cy k.payload)
    · exact representation_compress cy k.payload

end Cycle

theorem Negotiator.representation_negotiate {δ σ : Type} [Decision δ σ] (n : Negotiator δ)
    (head : Head) (r : Request) (body : BodyKind) :
    (n.negotiate head r body).cycle.representation = body.representation := by
  unfold negotiate
  split
  · rfl
  · split <;> rfl

namespace Connection

variable {δ σ : Type} [Decision δ σ] [Compressor σ] {c : Connection δ σ} {es : List Event}

/-- **Well kept**: the response that is under way is streamed, and after a fault nothing is left to
be sent. -/
structure WellKept (c : Connection δ σ) : Prop where
  streamed : ∀ cy, c.cycle = some cy → cy.representation = .streamed
  emptied : c.lifecycle = .failed → c.outbound = []

omit [Decision δ σ] [Compressor σ] in
theorem wellKept_new (d : δ) : (new d : Connection δ σ).WellKept := ⟨nofun, fun _ => rfl⟩

omit [Decision δ σ] [Compressor σ] in
theorem wellKept_abandon (c : Connection δ σ) : c.abandon.WellKept := ⟨nofun, fun _ => rfl⟩

/-- A write leaves the stage well kept. -/
theorem wellKept_write (h : c.WellKept) (m : Message) : (c.write m).after.WellKept := by
  have hw := c.wrote m
  generalize c.write m = s at hw
  have hnot (ha : c.lifecycle = .active) : c.lifecycle ≠ .failed := by
    rw [ha]
    exact Lifecycle.noConfusion
  cases hw with
  | terminated => exact h
  | overlaps | unmatched | headless | chunkFailed | aggregateFailed => exact wellKept_abandon _
  | head ha _ _ hn =>
    refine ⟨fun cy hcy => ?_, fun hf => absurd hf (hnot ha)⟩
    rw [← Option.some.inj hcy, hn]
    exact Negotiator.representation_negotiate ..
  | @chunk k cy ms ha hc _ =>
    refine ⟨fun cy' hcy => ?_, fun hf => absurd hf (hnot ha)⟩
    simp only [sent] at hcy
    split at hcy
    · cases hcy
    · rw [← Option.some.inj hcy, Cycle.representation_send]
      exact h.streamed cy hc
  | aggregate ha => exact ⟨h.streamed, fun hf => absurd hf (hnot ha)⟩

/-- Every operation leaves the stage well kept. -/
theorem wellKept_perform (h : c.WellKept) (op : Operation) : (c.perform op).after.WellKept := by
  cases haside : op.isAside with
  | true =>
    obtain ⟨hl, hc, ho, -⟩ := perform_aside (c := c) haside
    refine ⟨fun cy hcy => h.streamed cy (hc ▸ hcy), fun hf => ?_⟩
    rw [h.emptied (hl ▸ hf)] at ho
    exact (List.append_eq_nil_iff.1 ho).2
  | false =>
    cases op with
    | record r | read | drain => cases haside
    | write m => exact wellKept_write h m
    | deactivate =>
      by_cases hl : c.lifecycle = .inactive
      · rw [perform, deactivate_of_inactive hl]
        exact h
      · rw [perform, deactivate_of_not_inactive hl]
        exact ⟨fun cy hcy => absurd hcy (Option.some_ne_none cy).symm, Lifecycle.noConfusion⟩

/-- **A stage stays well kept**, whatever is done with it. -/
theorem wellKept_run (h : c.WellKept) (ops : List Operation) : (c.run ops).last.WellKept := by
  induction ops generalizing c with
  | nil => exact h
  | cons op ops ih => exact ih (wellKept_perform h op)

/-- **A consistent stage**, after these events. A response is under way only while the stage is
active. The compressors that are open are those that the stage holds: the one that codes the response
under way, if that is coded. After a fault nothing is left to be sent. -/
structure Consistent (c : Connection δ σ) (es : List Event) : Prop where
  active : ∀ cy, c.cycle = some cy → c.lifecycle = .active
  underWay : ∀ cy, c.cycle = some cy → cy.UnderWay es
  held : ∀ id, IsOpen id es ↔ ∃ l, c.lease? = some l ∧ l.id = id
  idle : c.lifecycle = .failed ∨ c.lifecycle = .inactive → c.cycle = none
  emptied : c.lifecycle = .failed → c.outbound = []

omit [Decision δ σ] [Compressor σ] in
/-- **What is open is what is held**: the compressor of the response under way, or none. -/
theorem isOpen_iff_of_inBalance (ho : c.InOrder) (hb : c.InBalance es) (id : Nat) :
    IsOpen id es ↔ ∃ l, c.lease? = some l ∧ l.id = id := by
  unfold lease?
  cases hc : c.cycle with
  | none =>
    have hidle : ¬ IsOpen id es := not_isOpen_of_accounts ((inBalance_of_none hc).1 hb)
    simpa using hidle
  | some cy =>
    rw [Option.bind_some]
    exact Cycle.isOpen_iff_of_custody (ho.unclosed cy hc) ((inBalance_of_some hc).1 hb) id

/-- **A stage is consistent** at any time: after any run, with any decision and with compressors of
which any call may fail. -/
theorem consistent_of_run (d : δ) (ops : List Operation) :
    let h := (new d : Connection δ σ).run ops
    h.last.Consistent h.events := by
  intro h
  have ho : h.last.InOrder := inOrder_run (inOrder_new d) ops
  have hb : h.last.InBalance h.events := inBalance_run (inOrder_new d) (inBalance_new d) ops
  have hk : h.last.WellKept := wellKept_run (wellKept_new d) ops
  have hactive (cy : Cycle σ) (hc : h.last.cycle = some cy) : h.last.lifecycle = .active :=
    ho.active (by rw [hc]; exact Option.some_ne_none cy)
  refine ⟨hactive, fun cy hc => ?_, isOpen_iff_of_inBalance ho hb, fun hended => ?_, hk.emptied⟩
  · have hopen := ho.unclosed cy hc
    exact ⟨hk.streamed cy hc, ho.unfinished cy hc, hopen,
      Cycle.treated_of_accounts hopen ((inBalance_of_some hc).1 hb)⟩
  · cases hc : h.last.cycle with
    | none => rfl
    | some cy =>
      rw [hactive cy hc] at hended
      rcases hended with he | he <;> cases he

section script

open Scripted

/-- Amid a coded response its compressor is the one that is open, and is at work. The piece that it
fails on ends the stage, and leaves none open. -/
theorem consistent_of_faltering_run :
    let h := (new faltering : Connection Script Machine).run faltered
    let k := (new faltering : Connection Script Machine).run
      (faltered ++ [.write (.chunk { payload := [2] })])
    (∃ cy l, h.last.cycle = some cy ∧ cy.CodedBy l h.events ∧ l.id = 0) ∧
      (∀ id, IsOpen id h.events ↔ id = 0) ∧
      k.last.lifecycle = .failed ∧ k.last.cycle = none ∧ k.last.outbound = [] ∧
      ∀ id, ¬ IsOpen id k.events := by
  intro h k
  have hcy : h.last.cycle = some ⟨.encoded (Octets.ofString "x")
      ⟨0, { behaviour := { failsAt := some 1 }, calls := 1 }, false⟩, .streamed, false⟩ := by decide
  have hl : h.last.lease? = some ⟨0, { behaviour := { failsAt := some 1 }, calls := 1 }, false⟩ := by
    rw [lease?, hcy]
    rfl
  have hfailed : k.last.lifecycle = .failed := by decide
  obtain ⟨-, hway, hheld, -, -⟩ := consistent_of_run faltering faltered
  obtain ⟨-, -, hended, hidle, hempty⟩ := consistent_of_run faltering
    (faltered ++ [.write (.chunk { payload := [2] })])
  have hnone : k.last.cycle = none := hidle (.inl hfailed)
  refine ⟨?_, fun id => ?_, hfailed, hnone, hempty hfailed, fun id hopen => ?_⟩
  · rcases (hway _ hcy).treated with ⟨reason, hp⟩ | ⟨l, hcoded⟩
    · cases hp.skipped
    · refine ⟨_, l, hcy, hcoded, ?_⟩
      rw [← Option.some.inj hcoded.leased]
  · rw [hheld id, show _ = some _ from hl]
    simp [eq_comm]
  · obtain ⟨l, hheld, -⟩ := (hended id).1 hopen
    rw [lease?, hnone] at hheld
    cases hheld

end script

end Connection

end ContentCoding
