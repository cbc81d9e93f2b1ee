import ContentCoding.Body.Polling
import ContentCoding.Proofs.CodedBodies
import Mathlib.Data.List.TakeDrop

/-!
# What a coded body gives out

What a coded body answers to its polls is told by its cycle and by what its source does, one frame
of the source after another. How many polls it takes to get there depends on which pieces give
data; what is answered in the end does not.

* `Source.polls_eq`: what polls of a source come to.
* `Cycle.yields`: the answers of a coded body up to its end.
* `polls_data`, `polls_of_conclude`: what polls come to, by the next frame of the source.
* `results_polls`: **polls answer what the body yields, and from then on that it has ended.**
-/

namespace ContentCoding

section lists

variable {α : Type} {l : List α} {a : α} {n : Nat}

theorem takeD_add (l : List α) (m : Nat) (a : α) :
    l.takeD (l.length + m) a = l ++ List.replicate m a := by
  induction l with
  | nil => simp
  | cons x l ih => simp [Nat.succ_add, ih]

/-- Where what a list is filled up with is reached, all of the list stands before it. -/
theorem takeD_of_mem (hl : a ∉ l) (h : a ∈ l.takeD n a) :
    ∃ m, n = l.length + (m + 1) ∧ l.takeD n a = l ++ List.replicate (m + 1) a := by
  have hlt : l.length < n := by
    by_contra hle
    rw [List.takeD_eq_take _ (Nat.le_of_not_lt hle)] at h
    exact hl (List.mem_of_mem_take h)
  obtain ⟨m, rfl⟩ := Nat.exists_eq_add_of_lt hlt
  exact ⟨m, rfl, takeD_add l (m + 1) a⟩

theorem mem_of_mem_takeD {b : α} (h : b ∈ l.takeD n a) : b ∈ l ∨ b = a := by
  induction n generalizing l with
  | zero => cases h
  | succ n ih =>
    cases l with
    | nil => exact .inr (List.eq_of_mem_replicate (List.takeD_nil (n + 1) a ▸ h))
    | cons x l =>
      rcases List.mem_cons.1 h with rfl | h
      · exact .inl (List.mem_cons_self ..)
      · exact (ih h).imp_left (List.mem_cons_of_mem x)

end lists

namespace Frame

/-- **Coded data**: one frame, or nothing where there is no data. -/
def ofData (out : Octets) : List Frame := if out = [] then [] else [.data out]

theorem settles_of_mem_ofData {x : Frame} {out : Octets} (h : x ∈ ofData out) :
    (Poll.frame x : Poll Failure).settles = false := by
  unfold ofData at h
  split at h
  · cases h
  · rw [List.mem_singleton.1 h]
    rfl

/-- **What comes behind the last piece**: the rest of the coded form, and the trailer fields. -/
def ending (rest : Octets) (trailers : Option Fields) : List Frame :=
  ofData rest ++ (trailers.map Frame.trailers).toList

end Frame

namespace Cycle

variable {σ : Type} [Compressor σ]

/-- The answers of a coded body once its source has come to its end. -/
def closing (cy : Cycle σ) (trailers : Option Fields) : List (Poll Failure) :=
  match cy.finish.answer with
  | .error f => [.failed (.ofFault f)]
  | .ok rest => (Frame.ending rest trailers).map .frame

/-- **What a coded body answers up to its end**, by what its source does. -/
def yields (cy : Cycle σ) : List (Poll Cause) → List (Poll Failure)
  | [] | .ended :: _ => cy.closing none
  | .frame (.trailers t) :: _ => cy.closing (some t)
  | .failed e :: _ => [.failed (.foreign e)]
  | .pending :: script => .pending :: yields cy script
  | .frame (.data piece) :: script =>
    match (cy.compress piece).answer with
    | .error f => [.failed (.ofFault f)]
    | .ok out => (Frame.ofData out).map .frame ++ yields (cy.compress piece).after script

/-- Once a body was finished there is nothing left to close. -/
theorem close_finish (cy : Cycle σ) : cy.finish.after.close = .pure () cy.finish.after := by
  obtain ⟨treatment, rep, fin⟩ := cy
  cases treatment with
  | skipped r => rfl
  | encoded label l =>
    simp only [finish, close, Lease.close_twice]
    rfl

/-- Once a body was closed there is nothing left to give up. -/
theorem release_close (cy : Cycle σ) : cy.close.after.release = [] := by
  obtain ⟨treatment, rep, fin⟩ := cy
  cases treatment with
  | skipped r => rfl
  | encoded label l => exact release_of_closed (Lease.closed_close l)

end Cycle

namespace CodedBody

variable {σ : Type} [Compressor σ] {source : Source} {cy : Cycle σ} {script : List (Poll Cause)}
  {piece out : Octets} {f : Fault} {trailers : Option Fields}

/-- **A coded body on its way**: its cycle, and what its source is still going to do. -/
def going (source : Source) (cy : Cycle σ) (script : List (Poll Cause)) : CodedBody σ :=
  ⟨source.rest script, cy, .reading⟩

/-- What the source did before is nothing to the body. -/
theorem pull_rest (source : Source) (cy : Cycle σ) (before script : List (Poll Cause)) :
    pull ⟨source.rest before, cy, .reading⟩ script = pull ⟨source, cy, .reading⟩ script := by
  induction script generalizing cy with
  | nil => rfl
  | cons p script ih =>
    cases p with
    | pending | ended | failed e => rfl
    | frame x =>
      cases x with
      | trailers t => rfl
      | data piece =>
        simp only [pull, ih]
        rfl

theorem poll_going (source : Source) (cy : Cycle σ) (script : List (Poll Cause)) :
    (going source cy script).poll = pull ⟨source, cy, .reading⟩ script :=
  pull_rest source cy script script

theorem poll_refused (h : (cy.compress piece).answer = .error f) :
    (going source cy (.frame (.data piece) :: script)).poll =
      (abort (going source (cy.compress piece).after script) (.ofFault f)).preceded
        (cy.compress piece).events := by
  rw [poll_going, pull, h]
  rfl

theorem poll_taken (h : (cy.compress piece).answer = .ok out) :
    (going source cy (.frame (.data piece) :: script)).poll =
      if out = [] then
        (going source (cy.compress piece).after script).poll.preceded (cy.compress piece).events
      else ⟨.frame (.data out), going source (cy.compress piece).after script,
        (cy.compress piece).events⟩ := by
  rw [poll_going, poll_going, pull, h]
  cases out with
  | nil => rfl
  | cons x xs => rfl

end CodedBody

namespace Body

variable {σ : Type} [Compressor σ] {source : Source} {cy : Cycle σ} {script : List (Poll Cause)}
  {b b' : CodedBody σ} {piece out : Octets} {f : Fault} {e : Failure} {trailers : Option Fields}

open CodedBody (going)

theorem polls_coded (b : CodedBody σ) (n : Nat) :
    (Body.coded b).polls (n + 1) =
      let v := (Body.coded b.poll.after).polls n
      { results := b.poll.result :: v.results, events := b.poll.events ++ v.events,
        last := v.last } := rfl

/-- A source that waits makes the body wait. -/
theorem polls_pending (source : Source) (cy : Cycle σ) (script : List (Poll Cause)) (n : Nat) :
    (Body.coded (going source cy (.pending :: script))).polls (n + 1) =
      let v := (Body.coded (going source cy script)).polls n
      { v with results := .pending :: v.results } := by
  rw [polls_coded, CodedBody.poll_going]
  rfl

/-- **A piece that is taken** is answered with what it gives, or passed over if that is nothing. -/
theorem polls_data (h : (cy.compress piece).answer = .ok out) (n : Nat) :
    (Body.coded (going source cy (.frame (.data piece) :: script))).polls (n + 1) =
      let v := (Body.coded (going source (cy.compress piece).after script)).polls
        (n + 1 - (Frame.ofData out).length)
      { results := (Frame.ofData out).map .frame ++ v.results
        events := (cy.compress piece).events ++ v.events, last := v.last } := by
  rw [polls_coded, CodedBody.poll_taken h]
  by_cases ho : out = []
  · simp [Frame.ofData, ho, polls_coded, Polled.preceded]
  · simp [Frame.ofData, ho]

/-- **A failure** is answered once. -/
theorem polls_of_abort {es : List Event} (h : b.poll = (CodedBody.abort b' e).preceded es)
    (n : Nat) :
    (Body.coded b).polls (n + 1) =
      { results := .failed e :: List.replicate n .ended, events := es ++ b'.cycle.close.events,
        last := .coded { b' with cycle := b'.cycle.close.after, phase := .done } } := by
  rw [polls_coded, h]
  have hdone := polls_of_done (b := { b' with cycle := b'.cycle.close.after, phase := .done }) rfl n
  simp only [Polled.preceded, CodedBody.abort, hdone, List.append_nil]

/-- Trailer fields that wait are answered next, and are the last. -/
theorem polls_of_trailing {t : Fields} (h : b.phase = .trailing t) (n : Nat) :
    (Body.coded b).polls (n + 1) =
      { results := .frame (.trailers t) :: List.replicate n .ended
        last := .coded { b with phase := .done } } := by
  have hp : b.poll = ⟨.frame (.trailers t), { b with phase := .done }, []⟩ := by
    simp [CodedBody.poll, h]
  rw [polls_coded, hp, polls_of_done rfl]
  rfl

/-- Behind its last piece a body has made all its calls. -/
theorem events_polls (h : b.phase ≠ .reading) (n : Nat) : ((Body.coded b).polls n).events = [] := by
  cases hp : b.phase with
  | reading => exact absurd hp h
  | done => rw [polls_of_done hp]
  | trailing t =>
    cases n with
    | zero => rfl
    | succ n => rw [polls_of_trailing hp]

/-- **The end of the source** is answered with what the finished form still gives, and the trailer
fields behind it. The body is done with the last of these answers. -/
theorem polls_of_conclude
    (h : b.poll = (CodedBody.conclude (going source cy script) trailers)) (n : Nat) :
    let v := (Body.coded b).polls (n + 1)
    v.results = (cy.closing trailers).takeD (n + 1) .ended ∧ v.events = cy.finish.events ∧
      ∃ phase, v.last = .coded ⟨source.rest script, cy.finish.after, phase⟩ ∧ phase ≠ .reading ∧
        (phase = .done ↔ (cy.closing trailers).length ≤ n + 1) := by
  intro v
  let behind (phase : Phase) : CodedBody σ := ⟨source.rest script, cy.finish.after, phase⟩
  -- all but one of the ways to end take one answer
  have hone (p : Poll Failure) (hp : b.poll = ⟨p, behind .done, cy.finish.events⟩)
      (hc : cy.closing trailers = [p] ∨ cy.closing trailers = [] ∧ p = .ended) :
      v.results = (cy.closing trailers).takeD (n + 1) .ended ∧ v.events = cy.finish.events ∧
        ∃ phase, v.last = .coded (behind phase) ∧ phase ≠ .reading ∧
          (phase = .done ↔ (cy.closing trailers).length ≤ n + 1) := by
    have hv : v = { results := p :: List.replicate n .ended, events := cy.finish.events,
                    last := .coded (behind .done) } := by
      simp only [v, polls_coded, hp, polls_of_done (b := behind .done) rfl, List.append_nil]
    rw [hv]
    rcases hc with hc | ⟨hc, rfl⟩
    · exact ⟨by simp [hc], rfl, .done, rfl, Phase.noConfusion, by simp [hc]⟩
    · exact ⟨by simp [hc], rfl, .done, rfl, Phase.noConfusion, by simp [hc]⟩
  rw [CodedBody.conclude] at h
  cases hf : cy.finish.answer with
  | error f =>
    refine hone (.failed (.ofFault f)) ?_ (.inl (by simp [Cycle.closing, hf]))
    simp only [going, hf] at h
    rw [h]
    simp [CodedBody.abort, Cycle.close_finish, Polled.preceded, Step.pure, behind]
  | ok rest =>
    have hclosing : cy.closing trailers = (Frame.ending rest trailers).map .frame := by
      simp [Cycle.closing, hf]
    simp only [going, hf] at h
    rw [hclosing] at hone ⊢
    cases rest with
    | nil =>
      cases trailers with
      | none => exact hone _ h (.inr ⟨rfl, rfl⟩)
      | some t => exact hone _ h (.inl rfl)
    | cons x xs =>
      cases trailers with
      | none => exact hone _ h (.inl rfl)
      | some t =>
        -- the data come first, and the trailer fields with the next poll
        have hv : v = let w := (Body.coded (behind (.trailing t))).polls n
            { results := .frame (.data (x :: xs)) :: w.results
              events := cy.finish.events ++ w.events, last := w.last } := by
          simp only [v, polls_coded, h]
          rfl
        rw [hv]
        cases n with
        | zero =>
          exact ⟨rfl, List.append_nil _, .trailing t, rfl, Phase.noConfusion,
            by simp [Frame.ending, Frame.ofData]⟩
        | succ n =>
          rw [polls_of_trailing rfl]
          exact ⟨by simp [Frame.ending, Frame.ofData], List.append_nil _, .done, rfl, Phase.noConfusion,
            by simp [Frame.ending, Frame.ofData]⟩

/-- **Polls answer what the body yields**, however many there are, and from then on that the body
has ended. -/
theorem results_polls (source : Source) (cy : Cycle σ) (script : List (Poll Cause)) (n : Nat) :
    ((Body.coded (going source cy script)).polls n).results =
      (cy.yields script).takeD n .ended := by
  induction script generalizing cy n with
  | nil =>
    cases n with
    | zero => rfl
    | succ n => exact (polls_of_conclude rfl n).1
  | cons p script ih =>
    cases n with
    | zero => rfl
    | succ n =>
      cases p with
      | pending =>
        simp only [polls_pending, ih]
        rfl
      | ended => exact (polls_of_conclude (CodedBody.poll_going ..) n).1
      | failed e =>
        have hp : (going source cy (.failed e :: script)).poll =
            (CodedBody.abort (going source cy script) (.foreign e)).preceded [] :=
          CodedBody.poll_going ..
        rw [polls_of_abort hp]
        simp [Cycle.yields]
      | frame x =>
        cases x with
        | trailers t => exact (polls_of_conclude (CodedBody.poll_going ..) n).1
        | data piece =>
          cases ha : (cy.compress piece).answer with
          | error f =>
            rw [polls_of_abort (CodedBody.poll_refused ha)]
            simp [Cycle.yields, ha]
          | ok out =>
            simp only [polls_data ha, ih]
            by_cases ho : out = []
            · simp [Cycle.yields, ha, Frame.ofData, ho]
            · simp [Cycle.yields, ha, Frame.ofData, ho]

/-- Behind its last piece a body has ended just when all that it answers is that. -/
theorem isEnded_iff_polls (h : b.phase ≠ .reading) :
    (Body.coded b).isEnded = true ↔
      ∀ m, ((Body.coded b).polls m).results = List.replicate m .ended := by
  rw [isEnded_iff]
  constructor
  · intro hd m
    rw [polls_of_done hd]
  · intro hall
    cases hp : b.phase with
    | reading => exact absurd hp h
    | done => rfl
    | trailing t =>
      have hone := hall 1
      rw [polls_of_trailing hp] at hone
      cases hone

end Body

/-- **How a source comes to its end**, with the trailer fields that it gives, if it gives some, and
what it would still do if it were polled again. -/
inductive Source.Ends : List (Poll Cause) → Option Fields → List (Poll Cause) → Prop
  | spent : Ends [] none []
  | ended (more : List (Poll Cause)) : Ends (.ended :: more) none more
  | trailers (t : Fields) (more : List (Poll Cause)) :
      Ends (.frame (.trailers t) :: more) (some t) more

/-- A body whose source comes to its end concludes. -/
theorem CodedBody.poll_of_ends {σ : Type} [Compressor σ] {tail more : List (Poll Cause)}
    {trailers : Option Fields} (h : Source.Ends tail trailers more) (source : Source)
    (cy : Cycle σ) : (going source cy tail).poll = conclude (.going source cy more) trailers := by
  rw [poll_going]
  cases h <;> rfl

section codes

variable {σ : Type} [Compressor σ] {source : Source} {label : Octets} {id : Nat} {s t : σ}
  {pieces : List (Octets × Octets)} {rest : Option Octets} {tail more : List (Poll Cause)}
  {trailers : Option Fields}

/-- **A cycle that codes a body** with this compressor, which is open. -/
def Cycle.coding (label : Octets) (id : Nat) (s : σ) : Cycle σ :=
  ⟨.encoded label ⟨id, s, false⟩, .streamed, false⟩

/-- **A coded body that was not polled yet.** -/
def CodedBody.start (source : Source) (label : Octets) (id : Nat) (s : σ) : CodedBody σ :=
  ⟨source, Cycle.coding label id s, .reading⟩

/-- The frames that carry these pieces. -/
def Source.carrying (pieces : List Octets) : List (Poll Cause) :=
  pieces.map fun piece => .frame (.data piece)

theorem Cycle.answer_finish_coding (hf : Compressor.Finishes s rest t)
    (hc : (Compressor.close t).1 = .ok ()) :
    (Cycle.coding label id s).finish.answer = .ok (rest.getD []) := by
  have hclose : ((Lease.mk id t false).close).answer = .ok () := by
    simp [Lease.close, hc, Except.mapError]
  cases hf with
  | already h => simp [coding, finish, Lease.finish, h, Step.pure, Except.bind, Except.map, hclose]
  | asked h hfin =>
    simp [coding, finish, Lease.finish, h, hfin, Except.mapError, Except.bind, Except.map, hclose]

theorem Cycle.compress_coding (label : Octets) (id : Nat) {piece : Octets} {answer : Except Cause Octets}
    (h : Compressor.compress s piece = (answer, t)) :
    (Cycle.coding label id s).compress piece =
      ⟨answer.mapError .compression, Cycle.coding label id t, [.compressed id piece answer]⟩ := by
  simp [coding, compress, Lease.compress, h, Step.within]

theorem Cycle.yields_of_ends (cy : Cycle σ) (h : Source.Ends tail trailers more) :
    cy.yields tail = cy.closing trailers := by
  cases h <;> rfl

/-- **A compressor that codes the body makes it yield its coded form**: what each piece gives, and
what the end gives. -/
theorem Cycle.yields_of_takes (ht : Compressor.Takes s pieces t)
    (hend : Source.Ends tail trailers more) :
    (Cycle.coding label id s).yields (Source.carrying (pieces.map Prod.fst) ++ tail) =
      (pieces.flatMap fun p => Frame.ofData p.2).map .frame ++
        (Cycle.coding label id t).closing trailers := by
  induction ht with
  | done => exact yields_of_ends _ hend
  | @piece s t u input out pieces hc _ ih =>
    have hstep := Cycle.compress_coding label id hc
    simp only [Source.carrying, List.map_cons, List.cons_append, yields, hstep,
      Except.mapError] at ih ⊢
    rw [ih, List.flatMap_cons, List.map_append, List.append_assoc]

/-- **A body begins to finish** with the first poll behind the data that the pieces gave. Until then
its source was not asked for its end; from then on it is not asked for anything. -/
theorem Body.last_of_takes (source : Source) (label : Octets) (id : Nat) (ht : Compressor.Takes s pieces t)
    (hend : Source.Ends tail trailers more) (n : Nat) :
    let script := Source.carrying (pieces.map Prod.fst) ++ tail
    let data := pieces.flatMap fun p => Frame.ofData p.2
    ∃ b, ((Body.coded (.going source (Cycle.coding label id s) script)).polls n).last = .coded b ∧
      (b.cycle.finished = true ↔ data.length < n) ∧
      (b.cycle.finished = false → ∃ left, b.source = source.rest (left ++ tail)) ∧
      (b.cycle.finished = true → b.source = source.rest more ∧ b.phase ≠ .reading) := by
  induction ht generalizing n with
  | @done s =>
    cases n with
    | zero => exact ⟨_, rfl, ⟨nofun, nofun⟩, fun _ => ⟨[], rfl⟩, nofun⟩
    | succ n =>
      obtain ⟨-, -, phase, hlast, hne, -⟩ :=
        polls_of_conclude (CodedBody.poll_of_ends hend source (Cycle.coding label id s)) n
      have hfin : (Cycle.coding label id s).finish.after.finished = true := Cycle.finished_finish
      exact ⟨_, hlast, ⟨fun _ => n.succ_pos, fun _ => hfin⟩, fun h => by simp [hfin] at h,
        fun _ => ⟨rfl, hne⟩⟩
  | @piece s t u input out pieces hc _ ih =>
    cases n with
    | zero => exact ⟨_, rfl, ⟨nofun, nofun⟩, fun _ => ⟨_, rfl⟩, nofun⟩
    | succ n =>
      have hstep := Cycle.compress_coding label id hc
      obtain ⟨b, hlast, hbegun, hb⟩ := ih (n + 1 - (Frame.ofData out).length)
      refine ⟨b, ?_, hbegun.trans ?_, hb⟩
      · simp only [Source.carrying, List.map_cons, List.cons_append] at hlast ⊢
        rw [polls_data (congrArg Step.answer hstep), hstep]
        exact hlast
      · simp only [List.flatMap_cons, List.length_append]
        omega

/-- **What a coded body gives out.** Where nothing fails, polls answer the data that the pieces of
the source gave, then what the finished form still gave, then the trailer fields of the source, each
only if there are some; and from then on that the body has ended. With the first poll behind the
data of the pieces the body begins to finish. Until then its source was not asked for its end; from
then on it is not polled any more, and the body says that it has ended just when all that it will
answer is that. -/
theorem output_of_codes (source : Source) (label : Octets) (id : Nat)
    (hcodes : Compressor.Codes s pieces rest) (hend : Source.Ends tail trailers more)
    (hscript : source.script = Source.carrying (pieces.map Prod.fst) ++ tail) (n : Nat) :
    let v := (Body.coded (.start source label id s)).polls n
    let data := pieces.flatMap fun p => Frame.ofData p.2
    v.results = ((data ++ Frame.ending (rest.getD []) trailers).map .frame).takeD n .ended ∧
      ∃ b, v.last = .coded b ∧ (b.cycle.finished = true ↔ data.length < n) ∧
        (b.cycle.finished = false → ∃ left, b.source = source.rest (left ++ tail)) ∧
        (b.cycle.finished = true → b.source = source.rest more ∧
          (v.last.isEnded = true ↔ ∀ m, (v.last.polls m).results = List.replicate m .ended)) := by
  intro v data
  obtain ⟨t, u, ht, hf, hc⟩ := hcodes
  have hstart : CodedBody.start source label id s =
      .going source (Cycle.coding label id s) source.script := rfl
  have hclosing : (Cycle.coding label id t).closing trailers =
      (Frame.ending (rest.getD []) trailers).map .frame := by
    rw [Cycle.closing, Cycle.answer_finish_coding hf hc]
  obtain ⟨b, hlast, hbegun, hbefore, hb⟩ :=
    Body.last_of_takes source label id ht hend n
  rw [← hscript, ← hstart] at hlast
  refine ⟨?_, b, hlast, hbegun, hbefore, fun hfin => ?_⟩
  · rw [List.map_append, ← hclosing, ← Cycle.yields_of_takes ht hend, ← hscript]
    exact Body.results_polls ..
  · obtain ⟨hsource, hphase⟩ := hb hfin
    refine ⟨hsource, ?_⟩
    rw [show v.last = _ from hlast]
    exact Body.isEnded_iff_polls hphase

end codes

section script

open Scripted

/-- A compressor that gives each piece back, and an octet at the end. -/
def echoing : Machine := { behaviour := { mode := .echo, tail := [9] } }

/-- Three pieces, of which one is empty, then trailer fields, and a piece that comes too late. -/
def answering : Source :=
  { script := Source.carrying [[1], [], [2]] ++ [.frame (.trailers []), .frame (.data [7])] }

/-- Two pieces give data, the end gives some more, and the trailer fields are the last. -/
theorem output_of_answering :
    let pieces : List (Octets × Octets) := [([1], [1]), ([], []), ([2], [2])]
    let v := (Body.coded (.start answering [] 0 echoing)).polls 6
    Compressor.Codes echoing pieces (some [9]) ∧
      Source.Ends [.frame (.trailers []), .frame (.data [7])] (some []) [.frame (.data [7])] ∧
      answering.script = Source.carrying (pieces.map Prod.fst) ++
        [.frame (.trailers []), .frame (.data [7])] ∧
      v.results = [.frame (.data [1]), .frame (.data [2]), .frame (.data [9]),
        .frame (.trailers []), .ended, .ended] ∧
      ∃ b, v.last = .coded b ∧ b.source.script = [.frame (.data [7])] ∧ v.last.isEnded = true := by
  intro pieces v
  have hcodes : Compressor.Codes echoing pieces (some [9]) :=
    ⟨_, _, .piece rfl (.piece rfl (.piece rfl .done)), .asked rfl rfl, rfl⟩
  have hend := Source.Ends.trailers [] [.frame (.data [7])]
  have hscript : answering.script = Source.carrying (pieces.map Prod.fst) ++
      [.frame (.trailers []), .frame (.data [7])] := rfl
  obtain ⟨hres, b, hlast, hbegun, -, hb⟩ :=
    output_of_codes answering [] 0 hcodes hend hscript 6
  obtain ⟨hsource, -⟩ := hb (hbegun.mpr (by decide))
  refine ⟨hcodes, hend, hscript, hres, b, hlast, ?_, ?_⟩
  · rw [hsource]
    rfl
  · decide

end script

end ContentCoding
