import ContentCoding.Proofs.BodyFailures

/-!
# Where a coded body has come to

Any number of polls leaves a coded body at a point of its source that was reached piece by piece, or
behind its end, unless something failed. What was answered by then is told by that way alone; and
the way to a point takes no more polls than it has answers.

* `Playback.Reached`: where polls have come to.
* `Body.reached_of_polls`: **polls come to one of these.**
* `Body.polls_of_reads`: each point on the way is come to, and nothing behind it is asked for.
-/

namespace ContentCoding

/-- The end of a source gives no data. -/
theorem Source.Ends.dataless {tail more : List (Poll Cause)} {trailers : Option Fields}
    (h : Source.Ends tail trailers more) : ∃ last, tail = last ++ more ∧ Poll.dataOf last = [] := by
  cases h with
  | spent => exact ⟨[], rfl, rfl⟩
  | ended => exact ⟨[.ended], rfl, rfl⟩
  | trailers fields => exact ⟨[.frame (.trailers fields)], rfl, rfl⟩

/-- The data that polls behind the end of a source give are the rest of the coded form. -/
theorem Poll.dataOf_ending (rest : Octets) (trailers : Option Fields) (m : Nat) :
    Poll.dataOf (((Frame.ending rest trailers).map .frame : List (Poll Failure)).takeD (m + 1)
      .ended) = rest := by
  by_cases hr : rest = []
  · cases trailers <;> simp [Frame.ending, Frame.ofData, hr, dataOf, data?]
  · -- the trailer fields come with the second poll, if there is one
    cases trailers <;> cases m <;> simp [Frame.ending, Frame.ofData, hr, dataOf, data?]

variable {σ : Type} [Compressor σ] {source : Source} {label : Octets} {id : Nat} {s t : σ}
  {script tail : List (Poll Cause)} {answers : List (Poll Failure)}

open CodedBody (going)
open Compressor (Reads)

/-- **Where polls of a coded body have come to**: something failed; or the body reads its source on;
or the source has come to its end, and the answers go on with what the finished form still gives. -/
inductive Playback.Reached (source : Source) (label : Octets) (id : Nat) (s : σ)
    (script : List (Poll Cause)) (v : Playback σ) : Prop
  | failed (f : Failure) : .failed f ∈ v.results → Reached source label id s script v
  | reading {t : σ} {tail : List (Poll Cause)} : Reads s script v.results t tail →
      v.last = .coded (going source (Cycle.coding label id t) tail) →
      Reached source label id s script v
  | ended {t : σ} {tail more : List (Poll Cause)} {answers : List (Poll Failure)}
      {trailers : Option Fields} {m : Nat} {b : CodedBody σ} : Reads s script answers t tail →
      Source.Ends tail trailers more →
      v.results = answers ++ ((Cycle.coding label id t).closing trailers).takeD (m + 1) .ended →
      v.last = .coded b → b.source = source.rest more → b.phase ≠ .reading →
      Reached source label id s script v

/-- An answer before the others, which the source caused by what it did first. -/
theorem Playback.Reached.prepend {v w : Playback σ} {p : Poll Cause}
    (h : v.Reached source label id t script) (first : List (Poll Failure))
    (hreads : ∀ {given u tail}, Reads t script given u tail →
      Reads s (p :: script) (first ++ given) u tail)
    (hr : w.results = first ++ v.results) (hl : w.last = v.last) :
    w.Reached source label id s (p :: script) := by
  cases h with
  | failed f hf => exact .failed f (hr ▸ List.mem_append_right _ hf)
  | reading hrun hlast => exact .reading (hr ▸ hreads hrun) (hl.trans hlast)
  | @ended u tail more answers trailers m b hrun hend hres hlast hsource hphase =>
    have hall : w.results = first ++ answers ++
        ((Cycle.coding label id u).closing trailers).takeD (m + 1) .ended := by
      rw [hr, hres, List.append_assoc]
    exact .ended (hreads hrun) hend hall (hl.trans hlast) hsource hphase

/-- The end of the source. -/
theorem Body.reached_of_ends {trailers : Option Fields} {more : List (Poll Cause)}
    (h : Source.Ends tail trailers more) (n : Nat) :
    ((Body.coded (going source (Cycle.coding label id s) tail)).polls (n + 1)).Reached source label
      id s tail := by
  obtain ⟨hres, -, phase, hlast, hphase, -⟩ :=
    polls_of_conclude (CodedBody.poll_of_ends h source (Cycle.coding label id s)) n
  exact .ended .here h hres hlast rfl hphase

/-- **Polls of a coded body come to one of these.** -/
theorem Body.reached_of_polls (source : Source) (label : Octets) (id : Nat) (s : σ)
    (script : List (Poll Cause)) (n : Nat) :
    ((Body.coded (going source (Cycle.coding label id s) script)).polls n).Reached source label id s
      script := by
  induction script generalizing s n with
  | nil =>
    cases n with
    | zero => exact .reading .here rfl
    | succ n => exact reached_of_ends .spent n
  | cons p script ih =>
    cases n with
    | zero => exact .reading .here rfl
    | succ n =>
      cases p with
      | ended => exact reached_of_ends (.ended script) n
      | pending =>
        refine (ih s n).prepend [.pending] Reads.waiting ?_ ?_
        · rw [polls_pending]
          rfl
        · rw [polls_pending]
      | failed e =>
        have hp : (going source (Cycle.coding label id s) (.failed e :: script)).poll =
            (CodedBody.abort (going source (Cycle.coding label id s) script) (.foreign e)).preceded
              [] := CodedBody.poll_going ..
        refine .failed (.foreign e) ?_
        rw [polls_of_abort hp]
        exact List.mem_cons_self ..
      | frame x =>
        cases x with
        | trailers fields => exact reached_of_ends (.trailers fields script) n
        | data input =>
          cases hc : Compressor.compress s input with
          | mk answer t =>
            have hstep := Cycle.compress_coding label id hc
            cases answer with
            | error cause =>
              refine .failed (.ofFault (.compression cause)) ?_
              rw [polls_of_abort (CodedBody.poll_refused (congrArg Step.answer hstep))]
              exact List.mem_cons_self ..
            | ok out =>
              have hp : (Body.coded (going source (Cycle.coding label id s)
                  (.frame (.data input) :: script))).polls (n + 1) = _ :=
                polls_data (congrArg Step.answer hstep) n
              rw [hstep] at hp
              refine (ih t (n + 1 - (Frame.ofData out).length)).prepend _ (Reads.piece hc) ?_ ?_
              · rw [hp]
              · rw [hp]

/-- What is read is the front of the source. -/
theorem Compressor.Reads.exists_pulled (h : Reads s script answers t tail) :
    ∃ pulled, script = pulled ++ tail := by
  induction h with
  | here => exact ⟨[], rfl⟩
  | waiting _ ih =>
    obtain ⟨pulled, rfl⟩ := ih
    exact ⟨.pending :: pulled, rfl⟩
  | @piece _ _ _ _ _ _ input _ _ _ ih =>
    obtain ⟨pulled, rfl⟩ := ih
    exact ⟨.frame (.data input) :: pulled, rfl⟩

/-- **What is read on the way takes no more polls than there are answers**, and nothing behind it is
asked for: only pieces that give nothing may be left before it. -/
theorem Body.polls_of_reads (source : Source) (label : Octets) (id : Nat)
    (hr : Reads s script answers t tail) :
    ∃ u left, ((Body.coded (going source (Cycle.coding label id s) script)).polls
        answers.length).results = answers ∧
      ((Body.coded (going source (Cycle.coding label id s) script)).polls answers.length).last =
        .coded (going source (Cycle.coding label id u) (left ++ tail)) := by
  induction hr with
  | @here s script => exact ⟨s, [], rfl, rfl⟩
  | @waiting s t script tail answers _ ih =>
    obtain ⟨u, left, hres, hlast⟩ := ih
    refine ⟨u, left, ?_, ?_⟩
    · rw [List.length_cons, polls_pending]
      exact congrArg (Poll.pending :: ·) hres
    · rw [List.length_cons, polls_pending]
      exact hlast
  | @piece s t u script tail answers input out hc hr ih =>
    obtain ⟨v, left, hres, hlast⟩ := ih
    have hstep := Cycle.compress_coding label id hc
    by_cases hnone : out = [] ∧ answers = []
    · -- a piece that gives nothing, and nothing behind it is answered: no poll at all
      obtain ⟨pulled, rfl⟩ := hr.exists_pulled
      obtain ⟨rfl, rfl⟩ := hnone
      exact ⟨s, .frame (.data input) :: pulled, rfl, rfl⟩
    · obtain ⟨n, hn⟩ : ∃ n, ((Frame.ofData out).map Poll.frame ++ answers).length = n + 1 := by
        refine Nat.exists_eq_succ_of_ne_zero fun hzero => hnone ?_
        rw [List.length_eq_zero_iff, List.append_eq_nil_iff, List.map_eq_nil_iff] at hzero
        refine ⟨?_, hzero.2⟩
        by_contra ho
        simp [Frame.ofData, ho] at hzero
      have hrest : n + 1 - (Frame.ofData out).length = answers.length := by
        rw [← hn, List.length_append, List.length_map, Nat.add_sub_cancel_left]
      have hp : (Body.coded (going source (Cycle.coding label id s)
          (.frame (.data input) :: script))).polls (n + 1) = _ :=
        polls_data (congrArg Step.answer hstep) n
      rw [hstep, hrest] at hp
      refine ⟨v, left, ?_, ?_⟩
      · rw [hn, hp]
        exact congrArg (_ ++ ·) hres
      · rw [hn, hp]
        exact hlast

end ContentCoding
