import ContentCoding.Proofs.Lifetimes
import ContentCoding.Proofs.Pairing
import ContentCoding.Proofs.Traffic
import Mathlib.Data.List.Nodup

/-!
# After a fault

A write that fails is the last thing that a stage does: no response is open behind it, nothing is
left to be sent, and every compressor that was ever opened is closed. From then on each operation
has one answer, whatever came before.

* `closings_eq_one`: with whole lives only, a compressor that was opened was closed once.
* `silent_of_write`: a write that fails leaves the stage silent.
* `perform_of_silent`, `run_of_silent`: a silent stage stays silent.
* `takenOf_run_of_inactive`: what is left at the end of the connection can be taken, and no write
  takes it away.
* `silent_of_fault`: **a fault is final.**
-/

namespace ContentCoding

/-- **How often a compressor was closed.** -/
def closings (id : Nat) (es : List Event) : Nat :=
  es.countP fun
    | .closed i _ => i == id
    | _ => false

section closings

variable {id n : Nat} {es : List Event} {lives : List Life}

theorem closings_append (id : Nat) (es fs : List Event) :
    closings id (es ++ fs) = closings id es + closings id fs := by
  unfold closings
  exact List.countP_append

/-- Of the events only the calls count. -/
theorem closings_calls (id : Nat) (es : List Event) : closings id (calls es) = closings id es := by
  unfold closings calls
  rw [List.countP_filter]
  refine List.countP_congr fun e _ => ?_
  cases e <;> simp [Event.compressor?]

theorem closings_feeding (id : Nat) (i : Nat) (pieces : List (Octets × Except Cause Octets)) :
    closings id (Life.feeding i pieces) = 0 := by
  refine List.countP_eq_zero.2 fun e he => ?_
  obtain ⟨p, -, rfl⟩ := List.mem_map.1 he
  exact Bool.false_ne_true

/-- A life has one close. -/
theorem closings_life (id : Nat) (l : Life) :
    closings id l.events = if l.id = id then 1 else 0 := by
  have hfin : closings id (Life.finishing l.id l.finish) = 0 := by
    cases hf : l.finish <;> simp [Life.finishing, closings]
  have hopen : closings id [.opened l.id] = 0 := rfl
  have hclose : closings id [.closed l.id l.close] = if l.id = id then 1 else 0 := by
    simp [closings, List.countP_cons]
  rw [Life.events, ← List.singleton_append, closings_append, closings_append, closings_append,
    hopen, closings_feeding, hfin, hclose]
  omega

theorem closings_lives (id : Nat) (lives : List Life) :
    closings id (lives.flatMap Life.events) = (lives.map Life.id).count id := by
  induction lives with
  | nil => rfl
  | cons l lives ih =>
    rw [List.flatMap_cons, closings_append, closings_life, ih, List.map_cons, List.count_cons]
    simp only [beq_iff_eq]
    omega

/-- A life opens its own compressor. -/
theorem id_of_opened {l : Life} (h : .opened id ∈ l.events) : l.id = id := by
  simp only [Life.events, Life.feeding, Life.finishing, List.mem_cons, List.mem_append,
    List.mem_map, Option.mem_toList, Event.opened.injEq, reduceCtorEq, and_false, exists_false,
    or_false, List.not_mem_nil] at h
  exact h.symm

theorem opened_mem_calls : .opened id ∈ calls es ↔ .opened id ∈ es := by
  simp [calls, Event.compressor?]

/-- **Where all lives are whole, each compressor that was opened was closed once.** -/
theorem closings_eq_one (hids : lives.map Life.id = List.range lives.length)
    (hcalls : calls es = lives.flatMap Life.events) (ho : .opened id ∈ es) :
    closings id es = 1 := by
  rw [← opened_mem_calls, hcalls] at ho
  obtain ⟨l, hl, hopen⟩ := List.mem_flatMap.1 ho
  have hmem : id ∈ lives.map Life.id := List.mem_map.2 ⟨l, hl, id_of_opened hopen⟩
  rw [← closings_calls, hcalls, closings_lives]
  rw [hids] at hmem ⊢
  exact List.count_eq_one_of_mem List.nodup_range hmem

/-- **A compressor at work** was opened, and was not closed yet. -/
theorem closings_eq_zero (h : Accounts n (.working id) es) :
    .opened id ∈ es ∧ closings id es = 0 := by
  obtain ⟨lives, fs, hids, hb, hcalls⟩ := h.begun
  cases hb with
  | working pieces =>
    constructor
    · rw [← opened_mem_calls, hcalls]
      exact List.mem_append_right _ (List.mem_cons_self ..)
    · -- the lives before have smaller numbers
      have hnot : lives.length ∉ lives.map Life.id := by
        rw [hids]
        exact List.not_mem_range_self
      have hfs : closings lives.length (.opened lives.length :: Life.feeding lives.length pieces) =
          0 := by
        rw [← List.singleton_append, closings_append, closings_feeding]
        rfl
      rw [← closings_calls, hcalls, closings_append, closings_lives, hfs,
        List.count_eq_zero_of_not_mem hnot]

end closings

/-- **The answer to an operation after a fault.** -/
def Operation.afterFault : Operation → Except Fault (List Message)
  | .write _ => .error .terminated
  | .record _ | .read | .drain | .deactivate => .ok []

namespace Connection

variable {δ σ : Type} [Decision δ σ] [Compressor σ] {c : Connection δ σ} {m : Message} {f : Fault}

/-- **A silent stage**: it has come to its end, and nothing is open or left to be sent. -/
structure Silent (c : Connection δ σ) : Prop where
  ceased : c.lifecycle ≠ .active
  idle : c.cycle = none
  empty : c.outbound = []

/-- What a silent stage does: it announces the end of the connection, unless that was done, with
nothing left to be sent. -/
def announcement (c : Connection δ σ) (ops : List Operation) : List Event :=
  if c.lifecycle ≠ .inactive ∧ .deactivate ∈ ops then [.notified []] else []

omit [Decision δ σ] [Compressor σ] in
theorem silent_abandon (c : Connection δ σ) : c.abandon.Silent := ⟨not_active_abandon, rfl, rfl⟩

/-- **A write that fails leaves the stage silent**, wherever the fault arose. -/
theorem silent_of_write (ha : c.lifecycle = .active) (hf : (c.write m).answer = .error f) :
    (c.write m).after.Silent ∧ (c.write m).after.lifecycle = .failed := by
  have hw := c.wrote m
  generalize c.write m = w at hw hf ⊢
  cases hw with
  | terminated hn => exact absurd ha hn
  | overlaps | unmatched | headless | chunkFailed | aggregateFailed =>
    exact ⟨silent_abandon _, rfl⟩
  | head | chunk | aggregate => cases hf

/-- Only a stage that has come to its end answers so. -/
theorem ne_terminated_of_write (ha : c.lifecycle = .active)
    (hf : (c.write m).answer = .error f) : f ≠ .terminated := by
  have hw := c.wrote m
  generalize c.write m = w at hw hf
  cases hw with
  | terminated hn => exact absurd ha hn
  | overlaps | unmatched | headless =>
    obtain rfl := Except.error.inj hf
    exact nofun
  | @chunkFailed k cy f' _ _ hs =>
    obtain rfl := Except.error.inj hf
    have hk := isNegotiated_send cy k
    rintro rfl
    rw [hs] at hk
    cases hk
  | @aggregateFailed a r rest n f' _ _ _ _ hs =>
    obtain rfl := Except.error.inj hf
    have hk := isNegotiated_sendWhole n.cycle a
    rintro rfl
    rw [hs] at hk
    cases hk
  | head | chunk | aggregate => cases hf

/-- **A silent stage stays silent**, and has one answer to each operation. -/
theorem perform_of_silent (h : c.Silent) (op : Operation) :
    (c.perform op).answer = op.afterFault ∧ (c.perform op).after.Silent ∧
      (c.perform op).events = c.announcement [op] ∧
      ((c.perform op).after.lifecycle = .inactive ↔
        c.lifecycle = .inactive ∨ op = .deactivate) := by
  have hnone (hne : op ≠ .deactivate) : c.announcement [op] = [] := by
    simp [announcement, Ne.symm hne]
  cases haside : op.isAside with
  | true =>
    obtain ⟨hl, hc, ho, he, ms, hms⟩ := perform_aside (c := c) haside
    obtain ⟨-, hop⟩ := Operation.isAside_iff.1 haside
    rw [h.empty, hms, List.append_eq_nil_iff] at ho
    obtain rfl : ms = [] := by simpa [takenOf] using ho.1
    refine ⟨?_, ⟨hl ▸ h.ceased, hc.trans h.idle, ho.2⟩, he.trans (hnone hop).symm, ?_⟩
    · rw [hms]
      cases op with
      | record r | read | drain => rfl
      | write m | deactivate => cases haside
    · rw [hl]
      simp [hop]
  | false =>
    cases op with
    | record r | read | drain => cases haside
    | write m =>
      rw [perform, write_of_not_active h.ceased]
      exact ⟨rfl, h, (hnone Operation.noConfusion).symm, by simp [Step.fail, Step.map]⟩
    | deactivate =>
      by_cases hl : c.lifecycle = .inactive
      · have hno : c.announcement [.deactivate] = [] := by simp [announcement, hl]
        rw [perform, deactivate_of_inactive hl, hno]
        exact ⟨rfl, h, rfl, by simp [hl, Step.pure, Step.map]⟩
      · have hyes : c.announcement [.deactivate] = [.notified []] := by simp [announcement, hl]
        rw [perform, deactivate_of_not_inactive hl, closeDown, h.idle, h.empty, hyes]
        exact ⟨rfl, ⟨Lifecycle.noConfusion, rfl, rfl⟩, rfl, by simp [Step.map]⟩

omit [Decision δ σ] [Compressor σ] in
/-- The end of the connection is announced once. -/
theorem announcement_cons {c' : Connection δ σ} {op : Operation} (ops : List Operation)
    (hl : c'.lifecycle = .inactive ↔ c.lifecycle = .inactive ∨ op = .deactivate) :
    c.announcement [op] ++ c'.announcement ops = c.announcement (op :: ops) := by
  unfold announcement
  by_cases hc : c.lifecycle = .inactive
  · have hc' : c'.lifecycle = .inactive := hl.2 (.inl hc)
    simp [hc, hc']
  · by_cases hop : op = .deactivate
    · have hc' : c'.lifecycle = .inactive := hl.2 (.inr hop)
      simp [hc, hc', hop]
    · have hc' : c'.lifecycle ≠ .inactive := fun h => (hl.1 h).elim hc hop
      simp [hc, hc', Ne.symm hop]

/-- **A silent stage stays silent**, whatever is done with it. -/
theorem run_of_silent (h : c.Silent) (ops : List Operation) :
    (c.run ops).answers = ops.map Operation.afterFault ∧ (c.run ops).last.Silent ∧
      (c.run ops).events = c.announcement ops := by
  induction ops generalizing c with
  | nil => exact ⟨rfl, h, by simp [run, announcement]⟩
  | cons op ops ih =>
    obtain ⟨ha, hs, he, hl⟩ := perform_of_silent h op
    obtain ⟨has, hlast, hes⟩ := ih hs
    refine ⟨?_, hlast, ?_⟩
    · rw [run, ha, has, List.map_cons]
    · rw [run, he, hes, announcement_cons ops hl]

/-- After the end of the connection an operation takes what is left, or nothing. -/
theorem perform_of_inactive (h : c.lifecycle = .inactive) (op : Operation) :
    (c.perform op).after.lifecycle = .inactive ∧
      takenOf [(c.perform op).answer] ++ (c.perform op).after.outbound = c.outbound := by
  cases haside : op.isAside with
  | true =>
    obtain ⟨hl, -, ho, -⟩ := perform_aside (c := c) haside
    exact ⟨hl.trans h, ho⟩
  | false =>
    cases op with
    | record r | read | drain => cases haside
    | write m =>
      rw [perform, write_of_not_active (by rw [h]; exact Lifecycle.noConfusion)]
      exact ⟨h, rfl⟩
    | deactivate =>
      rw [perform, deactivate_of_inactive h]
      exact ⟨h, rfl⟩

/-- **What is left at the end of the connection stays**, until it is taken. -/
theorem takenOf_run_of_inactive (h : c.lifecycle = .inactive) (ops : List Operation) :
    (c.run ops).last.lifecycle = .inactive ∧
      takenOf (c.run ops).answers ++ (c.run ops).last.outbound = c.outbound := by
  induction ops generalizing c with
  | nil => exact ⟨h, rfl⟩
  | cons op ops ih =>
    obtain ⟨hl, ho⟩ := perform_of_inactive h op
    obtain ⟨hlast, hrest⟩ := ih hl
    refine ⟨hlast, ?_⟩
    rw [run, takenOf_cons, List.append_assoc, hrest, ho]

omit [Decision δ σ] in
theorem lifecycle_deactivate (c : Connection δ σ) : c.deactivate.after.lifecycle = .inactive := by
  by_cases hl : c.lifecycle = .inactive
  · rw [deactivate_of_inactive hl]
    exact hl
  · rw [deactivate_of_not_inactive hl]
    rfl

omit [Decision δ σ] in
/-- The end of the connection keeps what was to be sent, where nothing fails. -/
theorem outbound_deactivate_of_ok (h : c.deactivate.answer = .ok ()) :
    c.deactivate.after.outbound = c.outbound := by
  by_cases hl : c.lifecycle = .inactive
  · rw [deactivate_of_inactive hl]
    rfl
  · rw [deactivate_of_not_inactive hl] at h ⊢
    exact if_pos h

omit [Decision δ σ] in
/-- Where a compressor cannot be closed as the connection ends, nothing is left to be sent. -/
theorem outbound_deactivate_of_ne_ok (h : c.deactivate.answer ≠ .ok ()) :
    c.deactivate.after.outbound = [] := by
  by_cases hl : c.lifecycle = .inactive
  · rw [deactivate_of_inactive hl] at h
    exact absurd rfl h
  · rw [deactivate_of_not_inactive hl] at h ⊢
    exact if_neg h

/-- After a write that fails every compressor that was opened was closed once, and the one that was
open is closed in that write. -/
theorem closings_of_write {es : List Event} (ho : c.InOrder) (hb : c.InBalance es)
    (ha : c.lifecycle = .active) (hf : (c.write m).answer = .error f) :
    (∀ id, .opened id ∈ es ++ (c.write m).events → closings id (es ++ (c.write m).events) = 1) ∧
      ∀ cy label l, c.cycle = some cy → cy.treatment = .encoded label l →
        closings l.id es = 0 ∧ closings l.id (c.write m).events = 1 := by
  obtain ⟨hs, -⟩ := silent_of_write ha hf
  have hw : (c.write m).after.InBalance (es ++ (c.write m).events) := inBalance_write ho hb m
  rw [inBalance_of_none hs.idle] at hw
  obtain ⟨lives, hids, hcalls⟩ := hw.lives
  have hone (id : Nat) (hid : .opened id ∈ es ++ (c.write m).events) :
      closings id (es ++ (c.write m).events) = 1 := closings_eq_one hids hcalls hid
  refine ⟨hone, fun cy label l hc ht => ?_⟩
  have hopen : l.closed = false := by
    have hcy := ho.unclosed cy hc
    rwa [Cycle.isClosed, ht] at hcy
  have hwork : Accounts c.negotiator.opened (.working l.id) es := by
    rw [inBalance_of_some hc, Cycle.custody, ht] at hb
    simpa [hopen] using hb
  obtain ⟨hmem, hzero⟩ := closings_eq_zero hwork
  have htotal := hone l.id (List.mem_append_left _ hmem)
  rw [closings_append, hzero, Nat.zero_add] at htotal
  exact ⟨hzero, htotal⟩

/-- **A fault is final**, after any run. A write that fails on an active stage leaves no response
open and nothing to be sent, and every compressor that was opened by then was closed once; the one
that was open is closed in this write. From then on every write answers that the stage has come to
its end and changes nothing, nothing can be taken, and the only event is that the connection ends.
After the end of a connection, too, no write changes anything, and what was to be sent can be taken,
unless a compressor could not be closed at that end. -/
theorem silent_of_fault (d : δ) (ops : List Operation) :
    let h := (new d : Connection δ σ).run ops
    (∀ m f, h.last.lifecycle = .active → (h.last.write m).answer = .error f →
      let w := h.last.write m
      f ≠ .terminated ∧ w.after.outbound = [] ∧ w.after.cycle = none ∧
        (∀ id, .opened id ∈ h.events ++ w.events → closings id (h.events ++ w.events) = 1) ∧
        (∀ cy label l, h.last.cycle = some cy → cy.treatment = .encoded label l →
          closings l.id h.events = 0 ∧ closings l.id w.events = 1) ∧
        ∀ more, let k := w.after.run more
          k.answers = more.map Operation.afterFault ∧
            k.events = (if .deactivate ∈ more then [.notified []] else []) ∧
            ∀ m, k.last.write m = .fail .terminated k.last) ∧
      ∀ more, let e := h.last.deactivate
        let k := e.after.run more
        (∀ m, k.last.write m = .fail .terminated k.last) ∧
          takenOf k.answers ++ k.last.outbound = e.after.outbound ∧
          (e.answer = .ok () → e.after.outbound = h.last.outbound) := by
  intro h
  have ho : h.last.InOrder := inOrder_run (inOrder_new d) ops
  have hb : h.last.InBalance h.events := inBalance_run (inOrder_new d) (inBalance_new d) ops
  constructor
  · intro m f ha hf w
    obtain ⟨hs, hfailed⟩ := silent_of_write ha hf
    obtain ⟨hone, hopen⟩ := closings_of_write ho hb ha hf
    refine ⟨ne_terminated_of_write ha hf, hs.empty, hs.idle, hone, hopen, fun more => ?_⟩
    obtain ⟨hans, hlast, hev⟩ := run_of_silent hs more
    refine ⟨hans, ?_, fun m => write_of_not_active hlast.ceased⟩
    rw [hev, announcement, hfailed]
    simp
  · intro more e k
    obtain ⟨hlast, hrest⟩ := takenOf_run_of_inactive (lifecycle_deactivate h.last) more
    refine ⟨fun m => write_of_not_active ?_, hrest, outbound_deactivate_of_ok⟩
    rw [hlast]
    nofun

section script

open Scripted

/-- A decision that codes everything, with compressors that cannot be closed. -/
def stubborn : Script :=
  ⟨[some ⟨Octets.ofString "x", { mode := .echo, failsToClose := true }⟩], 0⟩

/-- A streamed response up to its first chunk. -/
def opening : List Operation :=
  [.record ⟨.get, none⟩, .write (.head {}), .write (.chunk { payload := [1] })]

/-- A last chunk whose compressor cannot be closed ends the stage, and the compressor is closed all
the same. Where the connection ends in the middle of a response that can be given up, what was to
be sent is taken behind a write that is refused. -/
theorem silent_of_stubborn_run :
    let h := (new stubborn : Connection Script Machine).run opening
    let w := h.last.write (.chunk { payload := [2], last := true })
    let more := [.write (.head {}), .read, .deactivate, .deactivate]
    let e := ((new faltering : Connection Script Machine).run opening).last.deactivate
    let k := e.after.run [.write (.head {}), .drain]
    (h.last.lifecycle = .active ∧ w.answer = .error (.closing Machine.closeFailed) ∧
      w.after.outbound = [] ∧ w.after.cycle = none ∧ closings 0 (h.events ++ w.events) = 1 ∧
      (w.after.run more).answers = [.error .terminated, .ok [], .ok [], .ok []] ∧
      (w.after.run more).events = [.notified []]) ∧
    e.answer = .ok () ∧ k.last.outbound = [] ∧ (takenOf k.answers).length = 2 := by
  intro h w more e k
  have ha : h.last.lifecycle = .active := by decide
  have hf : w.answer = .error (.closing Machine.closeFailed) := by decide
  obtain ⟨-, hout, hcy, hone, -, hmore⟩ := (silent_of_fault stubborn opening).1 _ _ ha hf
  obtain ⟨hans, hev, -⟩ := hmore more
  have he : e.answer = .ok () := by decide
  have hk : k.last.outbound = [] := by decide
  obtain ⟨-, htaken, hkept⟩ :=
    (silent_of_fault faltering opening).2 [.write (.head {}), .drain]
  have hall := htaken.trans (hkept he)
  rw [show _ = ([] : List Message) from hk, List.append_nil] at hall
  refine ⟨⟨ha, hf, hout, hcy, hone 0 (by decide), hans, hev⟩, he, hk, ?_⟩
  rw [show takenOf k.answers = _ from hall]
  decide

/-- **What was to be sent is lost** where a compressor cannot be closed as the connection ends. -/
theorem lost_of_stubborn_end :
    let h := (new stubborn : Connection Script Machine).run opening
    let e := h.last.deactivate
    let k := e.after.run [.write (.head {}), .drain]
    h.last.outbound.length = 2 ∧ e.answer = .error (.closing Machine.closeFailed) ∧
      k.answers = [.error .terminated, .ok []] ∧ k.last.outbound = [] := by
  decide

end script

end Connection

end ContentCoding
