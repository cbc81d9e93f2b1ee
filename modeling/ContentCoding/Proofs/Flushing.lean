import ContentCoding.Proofs.EmptyFrames
import ContentCoding.Proofs.Progress

/-!
# Output that is flushed

A compressor that flushes behind each piece holds nothing back: what it gave so far decodes to all
that it took. Whether it does so is read off the head of the response, as it was written.

* `CallsForFlush.needsFlush`: a head that calls for flushing starts a compressor that flushes.
* `upToDate_compress`: **a compressor that flushes is up to date behind every piece.**
* `Compressor.upToDate_of_takes`, `Compressor.upToDate_of_reads`: and so behind any number of them.
* `Body.decoded_of_reached`: what polls of its body gave decodes to what the source gave.
-/

namespace ContentCoding

open Engine

/-- **Whether a head calls for flushing**: the first Content-Type, as far as it can be read as text,
begins as that of a stream of events or of remote calls; or the first X-Accel-Buffering is a no,
letter case aside. -/
def Fields.CallsForFlush (h : Fields) : Prop :=
  (∃ v, h.first? .contentType = some v ∧ v.all Octets.isVisible = true ∧
      (Octets.ofString "text/event-stream" <+: v ∨
        Octets.ofString "application/grpc-web" <+: v)) ∨
    ∃ t, h.text? .accelBuffering = some t ∧ Text.fold t = "no".toList

/-- **A head that calls for flushing** has its response flushed. -/
theorem Fields.CallsForFlush.needsFlush {h : Fields} (hf : h.CallsForFlush) :
    h.needsFlush = true := by
  unfold Fields.needsFlush
  rcases hf with ⟨v, hv, hread, hstream | hcalls⟩ | ⟨t, ht, hno⟩
  · rw [(hasType_iff (by decide)).2 ⟨v, hv, hread, hstream⟩, Bool.or_true, Bool.true_or]
  · rw [(hasType_iff (by decide)).2 ⟨v, hv, hread, hcalls⟩, Bool.or_true]
  · have hfold : Text.fold "no".toList = "no".toList := by decide
    have hsame : Text.sameFolded t "no".toList = true :=
      Text.sameFolded_iff.2 (hno.trans hfold.symm)
    simp only [ht, hsame, Bool.true_or]

/-- **Only a head that calls for flushing** has its response flushed. -/
theorem Fields.needsFlush_iff {h : Fields} : h.needsFlush = true ↔ h.CallsForFlush := by
  refine ⟨fun hn => ?_, CallsForFlush.needsFlush⟩
  rw [needsFlush, Bool.or_eq_true, Bool.or_eq_true, hasType_iff (by decide),
    hasType_iff (by decide)] at hn
  rcases hn with (hbuffer | ⟨v, hv, hread, hstream⟩) | ⟨v, hv, hread, hcalls⟩
  · split at hbuffer
    · cases hbuffer
    · rename_i t ht
      exact .inr ⟨t, ht, Text.sameFolded_iff.1 hbuffer⟩
  · exact .inl ⟨v, hv, hread, .inl hstream⟩
  · exact .inl ⟨v, hv, hread, .inr hcalls⟩

namespace Engine

variable {ε : Type} [Engine ε] {engine : Coding → ε} {coding : Coding} {pieces : List Octets}
  {given out : Octets} {e : ε} {decodes : Coding → Octets → Octets → Prop}

/-- **What was flushed can be decoded** once all of it is there. -/
theorem decodes_of_drain (hf : Flushes engine decodes) {mode : Mode}
    (h : Transcript (engine coding) mode pieces given e)
    (hm : mode = .taking ∨ mode = .amid .flush) (hp : pieces ≠ [])
    (hd : (drain .flush e).1 = .ok out) : decodes coding (given ++ out) pieces.flatten := by
  induction e using @drain.induct ε _ .flush generalizing given mode out with
  | case1 e c he =>
    rw [drain_of_error he] at hd
    cases hd
  | case2 e o he hc =>
    rw [drain_of_done he hc] at hd
    obtain rfl := Except.ok.inj hd
    exact hf _ _ _ _ _ _ h hm hp he hc
  | case3 e o he hc ih =>
    rw [drain_of_more he hc] at hd
    have ht := h.ask hm (fun _ => hp) he
    rw [if_neg hc] at ht
    obtain ⟨more, hr, rfl⟩ := ok_of_map hd
    rw [← List.append_assoc]
    exact ih ht (.inr rfl) hr

end Engine

namespace StreamCompressor

variable {ε : Type} [Engine ε] {engine : Coding → ε} {coding : Coding}
  {decodes : Coding → Octets → Octets → Prop} {c t : StreamCompressor ε}
  {content given input out : Octets}

/-- **A compressor that is up to date**: it flushes, its engine took this content, and what was
given out for it decodes to it. -/
structure UpToDate (c : StreamCompressor ε) (start : ε) (decodes : Octets → Octets → Prop)
    (content given : Octets) : Prop where
  flushes : c.alwaysFlush = true
  running : ∃ pieces : List Octets, pieces.flatten = content ∧ c.Running start pieces given
  decoded : content ≠ [] → decodes given content

theorem upToDate_start (e : ε) (decodes : Octets → Octets → Prop) :
    (StreamCompressor.start e true).UpToDate e decodes [] [] :=
  ⟨rfl, ⟨[], rfl, running_start e true⟩, fun h => absurd rfl h⟩

/-- Whether a compressor flushes is settled when it starts. -/
theorem alwaysFlush_compress (c : StreamCompressor ε) (input : Octets) :
    (c.compress input).2.alwaysFlush = c.alwaysFlush := by
  unfold compress
  split
  · rfl
  · split
    · rfl
    · split
      · rfl
      · split <;> rfl

/-- **A piece that was flushed can be decoded**, with all that was taken before it. -/
theorem decodes_of_compress (hf : Flushes engine decodes) {pieces : List Octets}
    (h : c.Running (engine coding) pieces given) (hflush : c.alwaysFlush = true)
    (ha : (c.compress input).1 = .ok out) :
    decodes coding (given ++ out) (pieces.flatten ++ input) := by
  obtain ⟨hfin, e, he, ht⟩ := h
  cases hfeed : (feed e input).1 with
  | error cause =>
    rw [compress_of_error hfin he hfeed] at ha
    cases ha
  | ok first =>
    -- all of the input is in the transcript, and is flushed behind it
    obtain ⟨taken, hne, hpiece, hfed⟩ := feed_transcript ht hfeed
    rw [compress_of_ok hfin he hfeed, flushing, if_pos hflush] at ha
    obtain ⟨more, hmore, rfl⟩ := ok_of_map ha
    have hpieces : pieces ++ taken ≠ [] := by simp [hne]
    have hd := decodes_of_drain hf hfed (.inl rfl) hpieces hmore
    rwa [List.append_assoc, List.flatten_append, hpiece] at hd

/-- **Behind every piece** a compressor that flushes is up to date, an empty one too. -/
theorem upToDate_compress (hf : Flushes engine decodes)
    (h : c.UpToDate (engine coding) (decodes coding) content given)
    (hc : c.compress input = (.ok out, t)) :
    t.UpToDate (engine coding) (decodes coding) (content ++ input) (given ++ out) ∧
      decodes coding (given ++ out) (content ++ input) := by
  have ha : (c.compress input).1 = .ok out := congrArg Prod.fst hc
  obtain rfl : (c.compress input).2 = t := congrArg Prod.snd hc
  obtain ⟨hflush, ⟨pieces, rfl, hrun⟩, -⟩ := h
  have hdecoded := decodes_of_compress hf hrun hflush ha
  obtain ⟨taken, -, hpiece, hnext⟩ := running_compress hrun ha
  refine ⟨⟨?_, ⟨pieces ++ taken, ?_, hnext⟩, fun _ => hdecoded⟩, hdecoded⟩
  · rw [alwaysFlush_compress, hflush]
  · rw [List.flatten_append, hpiece]

end StreamCompressor

section pieces

open Compressor (Takes Reads)

variable {ε : Type} [Engine ε] {engine : Coding → ε} {coding : Coding}
  {decodes : Coding → Octets → Octets → Prop} {c t : StreamCompressor ε}
  {content given : Octets}

/-- **Pieces that are taken** leave a compressor up to date. -/
theorem Compressor.upToDate_of_takes (hf : Flushes engine decodes)
    {pieces : List (Octets × Octets)} (ht : Takes c pieces t)
    (h : c.UpToDate (engine coding) (decodes coding) content given) :
    t.UpToDate (engine coding) (decodes coding) (content ++ (pieces.map Prod.fst).flatten)
      (given ++ (pieces.map Prod.snd).flatten) := by
  induction ht generalizing content given with
  | done =>
    rw [List.map_nil, List.map_nil, List.flatten_nil, List.append_nil, List.append_nil]
    exact h
  | piece hc _ ih =>
    obtain ⟨hnext, -⟩ := StreamCompressor.upToDate_compress hf h hc
    have hlast := ih hnext
    rwa [List.append_assoc, List.append_assoc] at hlast

/-- **Reading on** leaves a compressor up to date with what the source gave by then. -/
theorem Compressor.upToDate_of_reads (hf : Flushes engine decodes)
    {script tail : List (Poll Cause)} {answers : List (Poll Failure)}
    (hr : Reads c script answers t tail)
    (h : c.UpToDate (engine coding) (decodes coding) content given) :
    ∃ pulled, script = pulled ++ tail ∧
      t.UpToDate (engine coding) (decodes coding) (content ++ Poll.dataOf pulled)
        (given ++ Poll.dataOf answers) := by
  induction hr generalizing content given with
  | here =>
    refine ⟨[], rfl, ?_⟩
    simpa [Poll.dataOf] using h
  | waiting _ ih =>
    obtain ⟨pulled, rfl, hlast⟩ := ih h
    exact ⟨.pending :: pulled, rfl, hlast⟩
  | @piece _ _ _ _ _ _ input out hc _ ih =>
    obtain ⟨hnext, -⟩ := StreamCompressor.upToDate_compress hf h hc
    obtain ⟨pulled, rfl, hlast⟩ := ih hnext
    refine ⟨.frame (.data input) :: pulled, rfl, ?_⟩
    rw [Poll.dataOf_append, (given_ofData out).1, ← List.append_assoc]
    rwa [List.append_assoc content] at hlast

end pieces

section flushed

variable {ε : Type} [Engine ε] {engine : Coding → ε} {coding : Coding}
  {decodes : Coding → Octets → Octets → Prop} {c : StreamCompressor ε} {source : Source}
  {label : Octets} {id : Nat}

open CodedBody (going)
open Compressor (Reads)

/-- **What polls have given is decodable** to all that the source gave by then. Behind the end of
the source this is the whole coded form. -/
theorem Body.decoded_of_reached (hf : Flushes engine decodes)
    (hc : c.UpToDate (engine coding) (decodes coding) [] []) {script : List (Poll Cause)}
    {v : Playback (StreamCompressor ε)} {b : CodedBody (StreamCompressor ε)}
    (hv : v.Reached source label id c script) (hlast : v.last = .coded b)
    (hno : ∀ f, Poll.failed f ∉ v.results) (hb : b.phase = .reading ∨ Faithful engine decodes) :
    ∃ pulled, script = pulled ++ b.source.script ∧
      (Poll.dataOf pulled ≠ [] →
        decodes coding (Poll.dataOf v.results) (Poll.dataOf pulled)) := by
  cases hv with
  | failed f hmem => exact absurd hmem (hno f)
  | reading hr hl =>
    obtain rfl := Body.coded.inj (hlast.symm.trans hl)
    obtain ⟨pulled, hscript, ht⟩ := Compressor.upToDate_of_reads hf hr hc
    exact ⟨pulled, hscript, ht.decoded⟩
  | @ended t tail more answers trailers m b' hr hend hres hl hsource hphase =>
    obtain rfl := Body.coded.inj (hlast.symm.trans hl)
    have hfaith := hb.resolve_left hphase
    obtain ⟨pulled, hscript, ht⟩ := Compressor.upToDate_of_reads hf hr hc
    obtain ⟨pieces, hin, hrun⟩ := ht.running
    have hcycle : (Cycle.coding label id t).treatment = .encoded label ⟨id, t, false⟩ := rfl
    have hanswer := (Cycle.answers_of_encoded hcycle rfl hrun.1 []).2
    cases hfin : t.finish.1 with
    | error cause =>
      -- the end would be answered by a failure
      rw [hfin] at hanswer
      refine absurd ?_ (hno (.ofFault (.compression cause)))
      rw [hres, Cycle.closing, hanswer]
      exact List.mem_append_right _ (List.mem_cons_self ..)
    | ok rest =>
      rw [hfin] at hanswer
      obtain ⟨e, hended⟩ := StreamCompressor.ended_finish hrun hfin
      have hread := hfaith _ _ _ _ hended
      have hdata : Poll.dataOf v.results = Poll.dataOf answers ++ rest := by
        rw [hres, Poll.dataOf_append, Cycle.closing, hanswer]
        exact congrArg (_ ++ ·) (Poll.dataOf_ending rest trailers m)
      obtain ⟨last, rfl, hlastdata⟩ := hend.dataless
      refine ⟨pulled ++ last, ?_, fun _ => ?_⟩
      · rw [hscript, hsource, List.append_assoc]
        rfl
      · rw [hdata, Poll.dataOf_append, hlastdata, List.append_nil]
        rwa [hin] at hread

/-- Whether a source answers with nothing yet, or with a piece that is not empty. -/
def Poll.isFilled : Poll Cause → Bool
  | .pending => true
  | .frame (.data piece) => piece != []
  | .frame (.trailers _) | .failed _ | .ended => false

/-- **Pieces that are not empty are read**, each of them with one answer at most. -/
theorem Compressor.reads_of_filled (hs : TakesInput engine) {front : List (Poll Cause)}
    (hfront : ∀ p ∈ front, p.isFilled = true) {pieces : List Octets} {given : Octets}
    (hr : c.Running (engine coding) pieces given) (rest : List (Poll Cause)) :
    ∃ answers t, Reads c (front ++ rest) answers t rest ∧ answers.length ≤ front.length := by
  induction front generalizing c pieces given with
  | nil => exact ⟨[], c, .here, Nat.le_refl 0⟩
  | cons p front ih =>
    obtain ⟨hp, hmore⟩ := List.forall_mem_cons.1 hfront
    cases p with
    | failed | ended => cases hp
    | pending =>
      obtain ⟨answers, t, hreads, hlen⟩ := ih hmore hr
      exact ⟨_, t, hreads.waiting, Nat.succ_le_succ hlen⟩
    | frame x =>
      cases x with
      | trailers => cases hp
      | data input =>
        have htakes : takesPiece coding pieces input = true := by
          rw [takesPiece, show (input != []) = true from hp, Bool.true_or]
        rcases StreamCompressor.running_cases hs hr input with
          ⟨-, out, u, piece, hc, -, -, hrun⟩ | ⟨hnot, -⟩
        · obtain ⟨answers, t, hreads, hlen⟩ := ih hmore hrun
          refine ⟨_, t, .piece hc hreads, ?_⟩
          have hone : (Frame.ofData out).length ≤ 1 := by
            unfold Frame.ofData
            split <;> simp
          rw [List.length_append, List.length_map, List.length_cons]
          omega
        · cases htakes.symm.trans hnot

end flushed

end ContentCoding
