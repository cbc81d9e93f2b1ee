import ContentCoding.Proofs.Agreement
import ContentCoding.Proofs.EmptyPieces
import ContentCoding.Proofs.Waiting

/-!
# Empty frames of a polled body

A coded body hands every piece of its source to the engine, an empty one too. Where the engine takes
them all, empty pieces leave no trace; where it refuses one, the body fails, though nothing but an
empty piece was added to a body that can be coded.

* `Padded`: the same pieces, with empty ones in between.
* `Body.Conveys`: a body comes to its end, and reads as some content.
* `Compressor.reads_of_pieces`: a compressor reads its source to the end, or up to the piece that
  starves its engine.
* `conveys_iff_taken`: **empty pieces are harmless just where the coding takes them.**
-/

namespace ContentCoding

open Engine
open Compressor (Reads Fails)
open Poll (definite)

/-- **Empty pieces in between**: the same pieces, and any number of empty ones among them. -/
inductive Padded : List Octets → List Octets → Prop
  | nil : Padded [] []
  | piece {pieces padded : List Octets} (p : Octets) : Padded pieces padded →
      Padded (p :: pieces) (p :: padded)
  | empty {pieces padded : List Octets} : Padded pieces padded → Padded pieces ([] :: padded)

namespace Padded

variable {pieces padded : List Octets}

theorem sublist (h : Padded pieces padded) : pieces.Sublist padded := by
  induction h with
  | nil => exact .slnil
  | piece p _ ih => exact ih.cons_cons p
  | empty _ ih => exact ih.cons []

theorem flatten (h : Padded pieces padded) : padded.flatten = pieces.flatten := by
  induction h with
  | nil => rfl
  | piece p _ ih => rw [List.flatten_cons, List.flatten_cons, ih]
  | empty _ ih => rw [List.flatten_cons, ih, List.nil_append]

end Padded

/-- A coding that takes a body takes it with fewer pieces. -/
theorem Coding.Takes.of_sublist {coding : Coding} {pieces padded : List Octets}
    (h : coding.Takes padded) (hs : pieces.Sublist padded) : coding.Takes pieces := by
  cases coding with
  | zstd | brotli => trivial
  | gzip => exact fun hmem => h (hs.tail.subset hmem)
  | deflate => exact fun hmem => h (hs.subset hmem)

/-- **A body conveys content**, with trailer fields or without: it comes to its end and fails never,
and what it has given by then reads as the content. -/
structure Body.Conveys {σ : Type} [Compressor σ] (b : Body σ) (reads : Octets → Octets → Prop)
    (content : Octets) (trailers : Option Fields) : Prop where
  ends : ∃ n, .ended ∈ (b.polls n).results
  unfailed : ∀ n f, Poll.failed f ∉ (b.polls n).results
  content : ∀ n, .ended ∈ (b.polls n).results → reads (Poll.dataOf (b.polls n).results) content
  trailers : ∀ n, .ended ∈ (b.polls n).results →
    Poll.trailersOf (b.polls n).results = trailers.toList

/-- Answers that settle nothing are no end and no failure, and give no trailer fields. -/
theorem Poll.notMem_of_unsettled {ε : Type} {given : List (Poll ε)}
    (h : ∀ r ∈ given, r.settles = false) :
    .ended ∉ given ∧ (∀ f, Poll.failed f ∉ given) ∧ Poll.trailersOf given = [] := by
  refine ⟨fun hmem => ?_, fun f hmem => ?_, ?_⟩
  · cases h _ hmem
  · cases h _ hmem
  · refine List.filterMap_eq_nil_iff.2 fun r hr => ?_
    have hset := h r hr
    cases r with
    | pending | failed e | ended => rfl
    | frame x =>
      cases x with
      | data payload => rfl
      | trailers fields => cases hset

/-- Where no answer is an end or a failure, a body that gives them all conveys what they read as. -/
theorem Body.conveys_of_results {σ : Type} [Compressor σ] {b : Body σ} {given : List (Poll Failure)}
    {reads : Octets → Octets → Prop} {content : Octets} {trailers : Option Fields}
    (hresults : ∀ n, (b.polls n).results = given.takeD n .ended) (hunended : .ended ∉ given)
    (hunfailed : ∀ f, Poll.failed f ∉ given) (hread : reads (Poll.dataOf given) content)
    (htrailers : Poll.trailersOf given = trailers.toList) : b.Conveys reads content trailers := by
  have hall (n : Nat) (hn : .ended ∈ (b.polls n).results) :
      ∃ m, (b.polls n).results = given ++ List.replicate (m + 1) .ended := by
    rw [hresults] at hn ⊢
    obtain ⟨m, -, hm⟩ := takeD_of_mem hunended hn
    exact ⟨m, hm⟩
  refine ⟨⟨given.length + 1, ?_⟩, fun n f hmem => ?_, fun n hn => ?_, fun n hn => ?_⟩
  · rw [hresults, takeD_add]
    exact List.mem_append_right _ (List.mem_singleton.2 rfl)
  · rw [hresults] at hmem
    rcases mem_of_mem_takeD hmem with hmem | hmem
    · exact hunfailed f hmem
    · cases hmem
  · obtain ⟨m, hm⟩ := hall n hn
    rw [hm, Poll.dataOf_append, (Poll.given_behind (m + 1)).1, List.append_nil]
    exact hread
  · obtain ⟨m, hm⟩ := hall n hn
    rw [hm, Poll.trailersOf_append, (Poll.given_behind (m + 1)).2.1, List.append_nil]
    exact htrailers

namespace Source

variable {p : Poll Cause} {more rest left : List (Poll Cause)} {trailers : Option Fields}

/-- What comes behind the end of a source is nothing to its end. -/
theorem Ends.behind (h : Ends (p :: more) trailers left) (rest : List (Poll Cause)) :
    Ends (p :: rest) trailers rest := by
  cases h with
  | ended => exact .ended rest
  | trailers t => exact .trailers t rest

end Source

section engine

variable {ε : Type} [Engine ε] {engine : Coding → ε} {coding : Coding}
  {script tail more : List (Poll Cause)} {trailers : Option Fields}

/-- **A piece goes into the transcript**, where the engine takes it, and starves the engine if not. -/
theorem StreamCompressor.running_cases (hs : TakesInput engine) {taken : List Octets}
    {given : Octets} {c : StreamCompressor ε} (hr : c.Running (engine coding) taken given)
    (input : Octets) :
    (takesPiece coding taken input = true ∧ ∃ out t piece, c.compress input = (.ok out, t) ∧
        piece ≠ [] ∧ piece.flatten = input ∧
        t.Running (engine coding) (taken ++ piece) (given ++ out)) ∨
      takesPiece coding taken input = false ∧ ∃ t, c.compress input = (.error starved, t) := by
  rcases compress_cases hs hr input with ⟨ht, out, hout⟩ | ⟨ht, hfail⟩
  · obtain ⟨piece, hne, hpiece, hrun⟩ := running_compress hr hout
    exact .inl ⟨ht, out, _, piece, Prod.ext hout rfl, hne, hpiece, hrun⟩
  · exact .inr ⟨ht, _, Prod.ext hfail rfl⟩

/-- **A compressor reads its source to the end**, if its engine takes all the pieces; and if not, up
to the piece that starves it. -/
theorem Compressor.reads_of_pieces (hs : TakesInput engine) (hend : Source.Ends tail trailers more)
    {pieces taken : List Octets} {given : Octets} {c : StreamCompressor ε}
    (hd : definite script = Source.carrying pieces ++ tail)
    (hr : c.Running (engine coding) taken given) :
    (takesAll coding taken.isEmpty pieces = true ∧
        ∃ answers t rest left fed, Reads c script answers t rest ∧ Source.Ends rest trailers left ∧
          fed.flatten = pieces.flatten ∧
          t.Running (engine coding) (taken ++ fed) (given ++ Poll.dataOf answers)) ∨
      takesAll coding taken.isEmpty pieces = false ∧
        ∃ answers t rest left, Reads c script answers t rest ∧
          Fails t rest (.ofFault (.compression starved)) left := by
  -- along the source: what it waits for in between is read, too
  induction script generalizing pieces taken given c with
  | nil =>
    obtain ⟨hpieces, rfl⟩ := List.append_eq_nil_iff.1 hd.symm
    obtain rfl : pieces = [] := List.map_eq_nil_iff.1 hpieces
    exact .inl ⟨rfl, [], c, [], more, [], .here, hend, rfl, by simpa [Poll.dataOf] using hr⟩
  | cons p script ih =>
    by_cases hp : p = .pending
    · subst hp
      rcases ih hd hr with ⟨ht, answers, t, rest, left, fed, hreads, hrest⟩ |
        ⟨ht, answers, t, rest, left, hreads, hfails⟩
      · exact .inl ⟨ht, _, t, rest, left, fed, hreads.waiting, hrest⟩
      · exact .inr ⟨ht, _, t, rest, left, hreads.waiting, hfails⟩
    rw [Poll.definite_cons hp] at hd
    cases pieces with
    | nil =>
      -- the pieces are all read, and the source is at its end
      have hends : Source.Ends (p :: script) trailers script := by
        rw [← show _ = tail from hd] at hend
        exact hend.behind script
      exact .inl ⟨rfl, [], c, _, script, [], .here, hends, rfl, by simpa [Poll.dataOf] using hr⟩
    | cons input pieces =>
      obtain ⟨rfl, hbehind⟩ := List.cons.inj hd
      rw [takesAll, ← takesPiece]
      rcases StreamCompressor.running_cases hs hr input with
        ⟨ht, out, t, piece, hc, hne, hpiece, hrun⟩ | ⟨ht, t, hc⟩
      · -- the pieces that follow are not the first any more, even behind an empty one
        have hmore : (taken ++ piece).isEmpty = false := by simp [hne]
        have hrest := ih hbehind hrun
        rw [hmore] at hrest
        rw [ht, Bool.true_and]
        rcases hrest with ⟨ht, answers, u, rest, left, fed, hreads, hends, hfed, hu⟩ |
          ⟨ht, answers, u, rest, left, hreads, hfails⟩
        · refine .inl ⟨ht, _, u, rest, left, piece ++ fed, .piece hc hreads, hends, ?_, ?_⟩
          · rw [List.flatten_append, hpiece, hfed, List.flatten_cons]
          · rw [Poll.dataOf_append, (given_ofData out).1, ← List.append_assoc, ← List.append_assoc]
            exact hu
        · exact .inr ⟨ht, _, u, rest, left, .piece hc hreads, hfails⟩
      · exact .inr ⟨by rw [ht, Bool.false_and], [], c, _, script, .here, .piece hc⟩

/-- **A body that an engine codes**, which was not polled yet. -/
def Source.codedBy (source : Source) (e : ε) (alwaysFlush : Bool) (label : Octets) (id : Nat) :
    Body (StreamCompressor ε) :=
  .coded (.start source label id (.start e alwaysFlush))

variable {reads : Coding → Octets → Octets → Prop} {pieces padded : List Octets}
  {source source' : Source}

/-- **A body in pieces that its coding takes** conveys them. -/
theorem Source.conveys_of_takes (hs : TakesInput engine) (hf : Faithful engine reads)
    (hend : Source.Ends tail trailers more)
    (hd : definite source.script = Source.carrying pieces ++ tail) (ht : coding.Takes pieces)
    (alwaysFlush : Bool) (label : Octets) (id : Nat) :
    (source.codedBy (engine coding) alwaysFlush label id).Conveys (reads coding) pieces.flatten
      trailers := by
  have hstart := StreamCompressor.running_start (engine coding) alwaysFlush
  rw [takes_iff] at ht
  rcases Compressor.reads_of_pieces hs hend hd hstart with
    ⟨-, answers, t, rest, left, fed, hreads, hrest, hfed, hrun⟩ | ⟨hnot, -⟩
  case inr => cases ht.symm.trans hnot
  obtain ⟨out, hout⟩ := finish_ok hs.getsOn hrun
  obtain ⟨e, hended⟩ := StreamCompressor.ended_finish hrun hout
  have hclosing : (Cycle.coding label id t).closing trailers =
      (Frame.ending out trailers).map .frame := by
    have ht : (Cycle.coding label id t).treatment = .encoded label ⟨id, t, false⟩ := rfl
    rw [Cycle.closing, (Cycle.answers_of_encoded ht rfl hrun.1 []).2, hout]
    rfl
  -- what is answered: the data on the way, the rest of the coded form, and the trailer fields
  let given := answers ++ (Frame.ending out trailers).map Poll.frame
  have hresults (n : Nat) :
      ((source.codedBy (engine coding) alwaysFlush label id).polls n).results =
        given.takeD n .ended := by
    rw [show given = _ from congrArg (answers ++ ·) hclosing.symm,
      ← Cycle.yields_of_ends _ hrest, ← Cycle.yields_of_reads label id hreads]
    exact Body.results_polls ..
  obtain ⟨hunended, hunfailed, hnotrailers⟩ := Poll.notMem_of_unsettled hreads.unsettled
  apply Body.conveys_of_results hresults
  · simpa [given] using hunended
  · simpa [given] using hunfailed
  · rw [Poll.dataOf_append, (given_ending out trailers).1, ← hfed]
    exact hf _ _ _ _ hended
  · rw [Poll.trailersOf_append, hnotrailers, (given_ending out trailers).2, List.nil_append]

/-- **A body in pieces that its coding does not take** fails, with the piece that starves its
engine. -/
theorem Source.starved_of_not_takes (hs : TakesInput engine) (hend : Source.Ends tail trailers more)
    (hd : definite source.script = Source.carrying pieces ++ tail) (ht : ¬ coding.Takes pieces)
    (alwaysFlush : Bool) (label : Octets) (id : Nat) :
    ∃ n, .failed (.ofFault (.compression starved)) ∈
      ((source.codedBy (engine coding) alwaysFlush label id).polls n).results := by
  have hstart := StreamCompressor.running_start (engine coding) alwaysFlush
  rw [takes_iff] at ht
  rcases Compressor.reads_of_pieces hs hend hd hstart with
    ⟨htakes, -⟩ | ⟨-, answers, t, rest, left, hreads, hfails⟩
  case inl => exact absurd htakes ht
  let given : List (Poll Failure) := answers ++ [.failed (.ofFault (.compression starved))]
  have hresults :
      ((source.codedBy (engine coding) alwaysFlush label id).polls given.length).results =
        given.takeD given.length .ended := Body.results_of_fails source label id hreads hfails _
  refine ⟨given.length, ?_⟩
  rw [hresults, List.takeD_eq_take _ (Nat.le_refl _), List.take_length]
  exact List.mem_append_right _ (List.mem_singleton.2 rfl)

/-- **Empty pieces are harmless just where the coding takes them.** A source gives a body in pieces,
and another one gives it with empty pieces in between; either may wait, and may give trailer fields.
Coded by an engine that takes input as its coding has it, and that is faithful, the body of the one
conveys its content just where the coding takes its pieces; and that of the other conveys the same
content and trailer fields just where the coding takes the empty pieces as well. Where it does not,
the body fails with the empty piece that starved its engine. -/
theorem conveys_iff_taken (hs : TakesInput engine) (hf : Faithful engine reads)
    (hp : Padded pieces padded) (hend : Source.Ends tail trailers more)
    (hd : definite source.script = Source.carrying pieces ++ tail)
    (hd' : definite source'.script = Source.carrying padded ++ tail) (coding : Coding)
    (alwaysFlush : Bool) (label : Octets) (id : Nat) :
    let b := source.codedBy (engine coding) alwaysFlush label id
    let b' := source'.codedBy (engine coding) alwaysFlush label id
    (b.Conveys (reads coding) pieces.flatten trailers ↔ coding.Takes pieces) ∧
      (b'.Conveys (reads coding) pieces.flatten trailers ↔ coding.Takes padded) ∧
      (coding.Takes padded → coding.Takes pieces) ∧
      (¬ coding.Takes padded →
        ∃ n, .failed (.ofFault (.compression starved)) ∈ (b'.polls n).results) := by
  intro b b'
  have hstarved {pieces : List Octets} {source : Source}
      (hd : definite source.script = Source.carrying pieces ++ tail) (content : Octets)
      (h : (source.codedBy (engine coding) alwaysFlush label id).Conveys (reads coding) content
        trailers) : coding.Takes pieces := by
    by_contra ht
    obtain ⟨n, hn⟩ := Source.starved_of_not_takes hs hend hd ht alwaysFlush label id
    exact h.unfailed n _ hn
  refine ⟨⟨hstarved hd _, fun ht => ?_⟩, ⟨hstarved hd' _, fun ht => ?_⟩,
    fun ht => ht.of_sublist hp.sublist, fun ht => ?_⟩
  · exact Source.conveys_of_takes hs hf hend hd ht alwaysFlush label id
  · rw [← hp.flatten]
    exact Source.conveys_of_takes hs hf hend hd' ht alwaysFlush label id
  · exact Source.starved_of_not_takes hs hend hd' ht alwaysFlush label id

end engine

section stored

open Stored

/-- A source that waits and gives an empty piece first, then two pieces and trailer fields. -/
def prefaced : Source :=
  { script := [.pending, .frame (.data []), .frame (.data [1]), .frame (.data [2]),
      .frame (.trailers [])] }

/-- With gzip an empty first piece changes nothing. -/
theorem conveyed_of_prefaced :
    let reads := fun coding bytes content => (layout coding).read bytes = ⟨content, .ended⟩
    let tail : List (Poll Cause) := [.frame (.trailers [])]
    let source : Source := { script := Source.carrying [[1], [2]] ++ tail }
    TakesInput Encoder.start ∧ Faithful Encoder.start reads ∧ Padded [[1], [2]] [[], [1], [2]] ∧
      Source.Ends tail (some []) [] ∧
      definite source.script = Source.carrying [[1], [2]] ++ tail ∧
      definite prefaced.script = Source.carrying [[], [1], [2]] ++ tail ∧
      (source.codedBy (Encoder.start .gzip) true [] 0).Conveys (reads .gzip) [1, 2] (some []) ∧
      (prefaced.codedBy (Encoder.start .gzip) true [] 0).Conveys (reads .gzip) [1, 2]
        (some []) := by
  intro reads tail source
  have hf : Faithful Encoder.start reads := Encoder.faithful_start
  have hp : Padded [[1], [2]] [[], [1], [2]] := .empty (.piece [1] (.piece [2] .nil))
  have hend : Source.Ends tail (some []) [] := .trailers [] []
  have hd : definite source.script = Source.carrying [[1], [2]] ++ tail := by decide
  have hd' : definite prefaced.script = Source.carrying [[], [1], [2]] ++ tail := by decide
  obtain ⟨hone, hboth, hless, -⟩ :=
    conveys_iff_taken Encoder.takesInput_start hf hp hend hd hd' .gzip true [] 0
  have ht : Coding.gzip.Takes [[], [1], [2]] := by simp [Coding.Takes]
  exact ⟨Encoder.takesInput_start, hf, hp, hend, hd, hd', hone.2 (hless ht), hboth.2 ht⟩

/-- With deflate one piece is conveyed, and fails where an empty one follows it. -/
theorem not_conveyed_of_empty_frame :
    let reads := fun coding bytes content => (layout coding).read bytes = ⟨content, .ended⟩
    let source : Source := { script := [.frame (.data [1])] }
    let source' : Source := { script := [.frame (.data [1]), .frame (.data [])] }
    let b := source.codedBy (Encoder.start .deflate) false [] 0
    let b' := source'.codedBy (Encoder.start .deflate) false [] 0
    TakesInput Encoder.start ∧ Padded [[1]] [[1], []] ∧
      b.Conveys (reads .deflate) [1] none ∧ ¬ b'.Conveys (reads .deflate) [1] none ∧
      ∃ n, .failed (.ofFault (.compression starved)) ∈ (b'.polls n).results := by
  intro reads source source' b b'
  have hp : Padded [[1]] [[1], []] := .piece [1] (.empty .nil)
  have hd : definite source.script = Source.carrying [[1]] ++ [] := by decide
  have hd' : definite source'.script = Source.carrying [[1], []] ++ [] := by decide
  have hone : b.Conveys (reads .deflate) [1] none :=
    Source.conveys_of_takes Encoder.takesInput_start Encoder.faithful_start .spent hd
      (by simp [Coding.Takes]) false [] 0
  have hstarved : ∃ n, .failed (.ofFault (.compression starved)) ∈ (b'.polls n).results :=
    Source.starved_of_not_takes Encoder.takesInput_start .spent hd' (by simp [Coding.Takes])
      false [] 0
  obtain ⟨n, hn⟩ := hstarved
  exact ⟨Encoder.takesInput_start, hp, hone, fun h => h.unfailed n _ hn, n, hn⟩

end stored

end ContentCoding
