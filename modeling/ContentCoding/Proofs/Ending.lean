import ContentCoding.Proofs.Aftermath

/-!
# The end of a connection

A connection may be ended at any time and more than once. The first time everything is closed down,
and then the end is announced, with what is left to be sent. After that requests can still come in
and what is left can still be taken, and nothing else happens.

* `closeDown_of_inOrder`: what closing down does on a stage in order.
* `notified_notMem_run`: nothing else announces the end.
* `deactivate_of_inOrder`: what the first end of a connection does.
* `perform_of_ended`, `run_of_ended`: a stage that was ended stays ended.
* `ended_once`: **the end is handled once, and in order**, whatever came before and comes behind.
-/

namespace ContentCoding

theorem notified_notMem_calls (es : List Event) (left : List Message) :
    .notified left ∉ calls es := by
  intro h
  have hcall : (Event.notified left).compressor?.isSome = true := (List.mem_filter.1 h).2
  cases hcall

namespace Cycle

variable {σ : Type} [Compressor σ]

/-- The compressor of a body that is coded. -/
def lease? (cy : Cycle σ) : Option (Lease σ) :=
  match cy.treatment with
  | .skipped _ => none
  | .encoded _ l => some l

end Cycle

namespace Connection

variable {δ σ : Type} [Decision δ σ] [Compressor σ] {c : Connection δ σ} {op : Operation}
  {ops : List Operation}

/-- The compressor of the streamed response that is open, if that is coded. -/
def lease? (c : Connection δ σ) : Option (Lease σ) := c.cycle.bind Cycle.lease?

/-- What is done to an open compressor as the connection ends: it is closed. -/
def closing (l : Lease σ) : Event := .closed l.id (Compressor.close l.compressor).1

omit [Decision δ σ] in
/-- **Closing down closes the compressor that is open**, and calls nothing else. It fails where that
close does. -/
theorem closeDown_of_inOrder (h : c.InOrder) :
    c.closeDown.events = c.lease?.toList.map closing ∧
      c.closeDown.answer = match c.lease? with
        | none => .ok ()
        | some l => (Compressor.close l.compressor).1.mapError .closing := by
  unfold closeDown lease?
  cases hc : c.cycle with
  | none => exact ⟨rfl, rfl⟩
  | some cy =>
    have hopen := h.unclosed cy hc
    obtain ⟨treatment, rep, fin⟩ := cy
    cases treatment with
    | skipped reason => exact ⟨rfl, rfl⟩
    | encoded label l =>
      have hl : l.closed = false := hopen
      simp [Cycle.close, Cycle.lease?, Step.within, Lease.close, hl, closing]

section announcing

/-- A write does not announce the end. -/
theorem notified_notMem_write (c : Connection δ σ) (m : Message) (left : List Message) :
    .notified left ∉ (c.write m).events := by
  have hnegotiated (r : Request) (head : Head) (body : BodyKind) :
      .notified left ∉ (c.negotiated r head body).events := by
    unfold negotiated Negotiator.negotiate
    split
    · simp
    · split <;> simp
  have hcalls {es : List Event} (h : calls es = es) : .notified left ∉ es :=
    h ▸ notified_notMem_calls es left
  have hw := c.wrote m
  generalize c.write m = w at hw
  cases hw with
  | terminated | unmatched | headless => exact List.not_mem_nil
  | overlaps => exact hcalls (Cycle.calls_close _)
  | head _ _ _ hn =>
    rw [hn]
    exact hnegotiated _ _ _
  | chunk =>
    rw [List.mem_append, not_or]
    refine ⟨hcalls (Cycle.calls_send ..), ?_⟩
    split
    · exact hcalls (Cycle.calls_close _)
    · exact List.not_mem_nil
  | chunkFailed =>
    rw [List.mem_append, not_or]
    exact ⟨hcalls (Cycle.calls_send ..), hcalls (Cycle.calls_close _)⟩
  | aggregate _ _ _ hn | aggregateFailed _ _ _ hn =>
    simp only [List.mem_append, not_or]
    rw [hn]
    exact ⟨hnegotiated _ _ _, hcalls (Cycle.calls_sendWhole ..), hcalls (Cycle.calls_close _)⟩

/-- Until the connection ends its end is not announced, and no fault ends it. -/
theorem notified_notMem_perform (hl : c.lifecycle ≠ .inactive) (hop : op ≠ .deactivate) :
    (c.perform op).after.lifecycle ≠ .inactive ∧
      ∀ left, .notified left ∉ (c.perform op).events := by
  cases haside : op.isAside with
  | true =>
    obtain ⟨hsame, -, -, he, -⟩ := perform_aside (c := c) haside
    rw [hsame, he]
    exact ⟨hl, fun _ => List.not_mem_nil⟩
  | false =>
    cases op with
    | record r | read | drain => cases haside
    | deactivate => exact absurd rfl hop
    | write m =>
      refine ⟨?_, notified_notMem_write c m⟩
      have hw := c.wrote m
      rw [perform, Step.map]
      generalize c.write m = w at hw
      cases hw with
      | terminated | head | chunk | aggregate => exact hl
      | overlaps | unmatched | headless | chunkFailed | aggregateFailed =>
        exact Lifecycle.noConfusion

/-- **Nothing but the end of the connection announces it.** -/
theorem notified_notMem_run (hl : c.lifecycle ≠ .inactive) (hops : .deactivate ∉ ops) :
    (c.run ops).last.lifecycle ≠ .inactive ∧ ∀ left, .notified left ∉ (c.run ops).events := by
  induction ops generalizing c with
  | nil => exact ⟨hl, fun _ => List.not_mem_nil⟩
  | cons op ops ih =>
    obtain ⟨hop, hrest⟩ := List.ne_and_not_mem_of_not_mem_cons hops
    obtain ⟨hl', hn⟩ := notified_notMem_perform hl hop.symm
    obtain ⟨hlast, hns⟩ := ih hl' hrest
    refine ⟨hlast, fun left => ?_⟩
    rw [run, List.mem_append, not_or]
    exact ⟨hn left, hns left⟩

end announcing

/-- **A stage that was ended**: the end was announced, and no response is open. -/
structure Ended (c : Connection δ σ) : Prop where
  inactive : c.lifecycle = .inactive
  idle : c.cycle = none

omit [Decision δ σ] in
/-- **The first end of a connection** closes the compressor that is open, and then announces the end
with what is left to be sent. It fails where the close does. -/
theorem deactivate_of_inOrder (h : c.InOrder) (hl : c.lifecycle ≠ .inactive) :
    c.deactivate.events =
        c.lease?.toList.map closing ++ [.notified c.deactivate.after.outbound] ∧
      (∀ f, c.deactivate.answer = .error f ↔ ∃ l cause, c.lease? = some l ∧
        (Compressor.close l.compressor).1 = .error cause ∧ f = .closing cause) ∧
      c.deactivate.after.Ended ∧ c.deactivate.after.pending = 0 := by
  obtain ⟨hevents, hanswer⟩ := closeDown_of_inOrder h
  rw [deactivate_of_not_inactive hl]
  refine ⟨by rw [hevents], fun f => ?_, ⟨rfl, rfl⟩, rfl⟩
  rw [hanswer]
  cases c.lease? with
  | none => simp
  | some l =>
    cases hc : (Compressor.close l.compressor).1 with
    | ok u => simp [Except.mapError, hc]
    | error cause => simp [Except.mapError, hc, eq_comm]

/-- A stage that was ended only records the requests that come in. -/
theorem perform_of_ended (h : c.Ended) (op : Operation) :
    (c.perform op).after.Ended ∧ (c.perform op).events = [] ∧
      (c.perform op).after.pending = c.pending + (recorded [op]).length := by
  cases op with
  | record r =>
    refine ⟨⟨h.inactive, h.idle⟩, rfl, ?_⟩
    exact Backlog.size_record c.backlog r
  | read | drain => exact ⟨⟨h.inactive, h.idle⟩, rfl, rfl⟩
  | write m =>
    rw [perform, write_of_not_active (by rw [h.inactive]; exact Lifecycle.noConfusion)]
    exact ⟨h, rfl, rfl⟩
  | deactivate =>
    rw [perform, deactivate_of_inactive h.inactive]
    exact ⟨h, rfl, rfl⟩

/-- **A stage that was ended stays ended**, whatever is done with it. -/
theorem run_of_ended (h : c.Ended) (ops : List Operation) :
    (c.run ops).last.Ended ∧ (c.run ops).events = [] ∧
      (c.run ops).last.pending = c.pending + (recorded ops).length := by
  induction ops generalizing c with
  | nil => exact ⟨h, rfl, rfl⟩
  | cons op ops ih =>
    obtain ⟨hs, he, hp⟩ := perform_of_ended h op
    obtain ⟨hlast, hes, hps⟩ := ih hs
    refine ⟨hlast, ?_, ?_⟩
    · rw [run, he, hes, List.append_nil]
    · have hr : recorded (op :: ops) = recorded [op] ++ recorded ops := by
        unfold recorded
        rw [← List.filterMap_append, List.singleton_append]
      rw [run, hps, hp, hr, List.length_append, Nat.add_assoc]

/-- **The end of a connection is handled once, and in order**, after any run and with any run behind
it. The first time all is closed down: the compressor of a response that is open is closed, and not
finished; the answer is the failure of that close; and where it fails nothing is left to be sent,
while else all of it is. Then the end is announced, for the only time, when that much is left. From
there on no response is open, the requests that wait are those that come in, what was left is taken
in order, ending the connection again does nothing, and nothing can be written. -/
theorem ended_once (d : δ) (before behind : List Operation) (hb : .deactivate ∉ before) :
    let h := (new d : Connection δ σ).run before
    let e := h.last.deactivate
    let closings := h.last.lease?.toList.map closing
    let left := e.after.outbound
    e.events = closings ++ [.notified left] ∧
      (e.answer = .ok () → left = h.last.outbound) ∧
      (e.answer ≠ .ok () → left = []) ∧
      (∀ f, e.answer = .error f ↔ ∃ l cause, h.last.lease? = some l ∧
        (Compressor.close l.compressor).1 = .error cause ∧ f = .closing cause) ∧
      (∀ left, .notified left ∉ h.events ++ closings) ∧
      ((new d : Connection δ σ).run (before ++ .deactivate :: behind)).events =
        h.events ++ closings ++ [.notified left] ∧
      let k := e.after.run behind
      k.last.cycle = none ∧ k.last.pending = (recorded behind).length ∧
        takenOf k.answers ++ k.last.outbound = left ∧
        k.last.deactivate = .pure () k.last ∧ ∀ m, k.last.write m = .fail .terminated k.last := by
  intro h e closings left
  have ho : h.last.InOrder := inOrder_run (inOrder_new d) before
  have hnew : (new d : Connection δ σ).lifecycle ≠ .inactive := Lifecycle.noConfusion
  obtain ⟨hl, hn⟩ := notified_notMem_run hnew hb
  obtain ⟨hevents, hanswer, hended, hzero⟩ := deactivate_of_inOrder ho hl
  obtain ⟨hlast, hquiet, hpending⟩ := run_of_ended hended behind
  obtain ⟨-, htaken⟩ := takenOf_run_of_inactive hended.inactive behind
  refine ⟨hevents, outbound_deactivate_of_ok, outbound_deactivate_of_ne_ok, hanswer,
    fun left => ?_, ?_, hlast.idle, ?_, htaken, ?_, fun m => ?_⟩
  · rw [List.mem_append, not_or]
    exact ⟨hn left, by simp [closings, closing]⟩
  · have hrun : ((new d : Connection δ σ).run (before ++ .deactivate :: behind)).events =
        h.events ++ (e.events ++ (e.after.run behind).events) := by
      rw [run_append]
      rfl
    rw [hrun, hquiet, List.append_nil, show e.events = _ from hevents, List.append_assoc]
  · rw [hpending, hzero, Nat.zero_add]
  · exact deactivate_of_inactive hlast.inactive
  · exact write_of_not_active (by rw [hlast.inactive]; exact Lifecycle.noConfusion)

section script

open Scripted

/-- A connection ended twice amid a response whose compressor cannot be closed, with a request and a
write behind it. Two messages were to be sent, and none is when the end is announced. -/
theorem ended_once_of_stubborn_run :
    let h := (new stubborn : Connection Script Machine).run opening
    let e := h.last.deactivate
    let behind := [.deactivate, .record ⟨.get, none⟩, .write (.head {}), .drain]
    let k := e.after.run behind
    .deactivate ∉ opening ∧ e.answer = .error (.closing Machine.closeFailed) ∧
      h.last.outbound.length = 2 ∧ e.after.outbound = [] ∧
      ((new stubborn : Connection Script Machine).run (opening ++ .deactivate :: behind)).events =
        h.events ++ [.closed 0 (.error Machine.closeFailed)] ++ [.notified []] ∧
      k.last.pending = 1 ∧ k.last.write (.head {}) = .fail .terminated k.last := by
  intro h e behind k
  have hb : .deactivate ∉ opening := by decide
  obtain ⟨-, -, hout, herr, -, hall, -, hp, -, -, hw⟩ := ended_once stubborn opening behind hb
  have hopen : h.last.lease? =
      some ⟨0, { behaviour := { mode := .echo, failsToClose := true }, calls := 1 }, false⟩ := by
    decide
  have he : e.answer = .error (.closing Machine.closeFailed) :=
    (herr _).2 ⟨_, _, hopen, rfl, rfl⟩
  have hnone : e.after.outbound = [] := by
    refine hout ?_
    rw [show h.last.deactivate.answer = _ from he]
    exact nofun
  rw [hopen, show h.last.deactivate.after.outbound = [] from hnone] at hall
  exact ⟨hb, he, by decide, hnone, hall, hp, hw _⟩

end script

end Connection

end ContentCoding
