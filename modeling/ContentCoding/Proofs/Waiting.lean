import ContentCoding.Proofs.BodyFailures

/-!
# Sources that wait

A source may answer that it has nothing yet, any number of times and anywhere. A coded body passes
that on, and is the same body otherwise: what it answers besides, and the calls of its compressor,
do not depend on when its source waited.

* `Poll.Delays`: the same answers, with waiting in between.
* `CodedBody.poll_asks`: what the source answered in one poll of the body.
* `Body.alike_of_delays`: a source that waits more takes more polls, and nothing else.
* `transparent_of_delays`: **waiting changes nothing but the number of polls**, and a poll has
  nothing to answer just where the source had nothing.
-/

namespace ContentCoding

namespace Poll

variable {ε : Type}

/-- Whether an answer is that there is nothing yet. -/
def isPending : Poll ε → Bool
  | .pending => true
  | .frame _ | .failed _ | .ended => false

/-- The answers that are more than waiting. -/
def definite (ps : List (Poll ε)) : List (Poll ε) := ps.filter fun p => !p.isPending

/-- **Waiting in between**: the same answers, and any number of times that there was nothing yet. -/
inductive Delays : List (Poll ε) → List (Poll ε) → Prop
  | nil : Delays [] []
  | answer {ps qs : List (Poll ε)} (p : Poll ε) : Delays ps qs → Delays (p :: ps) (p :: qs)
  | wait {ps qs : List (Poll ε)} : Delays ps qs → Delays ps (.pending :: qs)

theorem definite_append (ps qs : List (Poll ε)) :
    definite (ps ++ qs) = definite ps ++ definite qs := by
  simp [definite]

theorem definite_cons {p : Poll ε} (hp : p ≠ .pending) (ps : List (Poll ε)) :
    definite (p :: ps) = p :: definite ps := by
  cases p with
  | pending => exact absurd rfl hp
  | frame | failed | ended => rfl

end Poll

open Poll (Delays definite)

namespace CodedBody

variable {σ : Type} [Compressor σ]

/-- A body that comes to the end of its source does not wait, and reads no more. -/
theorem conclude_settled (b : CodedBody σ) (trailers : Option Fields) :
    (b.conclude trailers).result ≠ .pending ∧ (b.conclude trailers).after.source = b.source ∧
      (b.conclude trailers).after.phase ≠ .reading := by
  cases hf : b.cycle.finish.answer with
  | error f => simp [conclude, hf, abort, Polled.preceded]
  | ok out =>
    cases out with
    | nil => cases trailers <;> simp [conclude, hf]
    | cons x xs => cases trailers <;> simp [conclude, hf]

/-- **What the source answered** in a poll of the body: that it has nothing yet, just where the body
answered this; and where it came to its end or failed, the body did not wait and reads no more. -/
structure Asks (b : CodedBody σ) (k : Nat) : Prop where
  left : b.poll.after.source = (b.source.polls k).2
  waits : b.poll.result = .pending ↔ .pending ∈ (b.source.polls k).1
  settles : (∃ p ∈ (b.source.polls k).1, p.settles) →
    b.poll.result ≠ .pending ∧ b.poll.after.phase ≠ .reading

variable {b : CodedBody σ} {source : Source} {cy : Cycle σ} {script : List (Poll Cause)}
  {p : Poll Cause} {left : Source} {piece : Octets}

/-- A body that has read its source to an end asks it for nothing. -/
theorem asks_of_not_reading (h : b.phase ≠ .reading) : b.Asks 0 := by
  have hpoll : b.poll.after.source = b.source ∧ b.poll.result ≠ .pending := by
    cases hp : b.phase with
    | reading => exact absurd hp h
    | trailing t => simp [poll, hp]
    | done => simp [poll, hp]
  refine ⟨hpoll.1, ⟨fun hw => absurd hw hpoll.2, fun hm => absurd hm List.not_mem_nil⟩, ?_⟩
  rintro ⟨p, hp, -⟩
  cases hp

/-- One answer of the source is enough, unless it is a piece that gives nothing. -/
theorem asks_one (hs : b.source.poll = (p, left)) (hafter : b.poll.after.source = left)
    (hwaits : b.poll.result = .pending ↔ p = .pending)
    (hsettles : p.settles → b.poll.result ≠ .pending ∧ b.poll.after.phase ≠ .reading) :
    b.Asks 1 := by
  have hone : b.source.polls 1 = ([p], left) := by simp [Source.polls, hs]
  refine ⟨?_, ?_, ?_⟩
  · rw [hafter, hone]
  · rw [hwaits, hone, List.mem_singleton]
    exact eq_comm
  · rw [hone]
    rintro ⟨q, hq, hset⟩
    rw [List.mem_singleton.1 hq] at hset
    exact hsettles hset

/-- The end of the source is its last answer. -/
theorem asks_of_conclude {trailers : Option Fields} (hs : b.source.poll = (p, source.rest script))
    (hp : p ≠ .pending) (hb : b.poll = conclude (going source cy script) trailers) : b.Asks 1 := by
  obtain ⟨hresult, hsource, hphase⟩ := conclude_settled (going source cy script) trailers
  rw [← hb] at hresult hsource hphase
  apply asks_one hs hsource
  · exact ⟨fun h => absurd h hresult, fun h => absurd h hp⟩
  · exact fun _ => ⟨hresult, hphase⟩

/-- A piece that gives nothing is passed over, and the source is asked again. -/
theorem asks_of_passed {k : Nat} {es : List Event} {c : CodedBody σ} (h : c.Asks k)
    (hs : b.source.poll = (.frame (.data piece), c.source)) (hb : b.poll = c.poll.preceded es) :
    b.Asks (k + 1) := by
  have hpolls : b.source.polls (k + 1) =
      (.frame (.data piece) :: (c.source.polls k).1, (c.source.polls k).2) := by
    rw [Source.polls, hs]
  obtain ⟨hleft, hwaits, hsettles⟩ := h
  refine ⟨?_, ?_, ?_⟩
  · rw [hb, hpolls]
    exact hleft
  · rw [hb, hpolls]
    simpa [Polled.preceded] using hwaits
  · rw [hb, hpolls]
    rintro ⟨p, hp, hset⟩
    rcases List.mem_cons.1 hp with rfl | hp
    · cases hset
    · exact hsettles ⟨p, hp, hset⟩

/-- **Each poll of a body asks its source a number of times**, and waits where the source does. -/
theorem poll_asks (b : CodedBody σ) : ∃ k, b.Asks k := by
  by_cases hp : b.phase = .reading
  · obtain ⟨source, cy, phase⟩ := b
    obtain rfl : phase = .reading := hp
    change ∃ k, (going source cy source.script).Asks k
    -- along the source: what it is still going to do tells how often it is asked
    generalize source.script = script
    induction script generalizing cy with
    | nil => exact ⟨1, asks_of_conclude rfl (by simp) (poll_going ..)⟩
    | cons p script ih =>
      have hpoll := poll_going source cy (p :: script)
      cases p with
      | ended => exact ⟨1, asks_of_conclude rfl (by simp) hpoll⟩
      | pending => exact ⟨1, asks_one rfl (by rw [hpoll]; rfl) (by simp [hpoll, pull])
          (by simp [Poll.settles])⟩
      | failed e =>
        refine ⟨1, asks_one rfl (by rw [hpoll]; rfl) (by simp [hpoll, pull, abort]) fun _ => ?_⟩
        simp [hpoll, pull, abort]
      | frame x =>
        cases x with
        | trailers t => exact ⟨1, asks_of_conclude rfl (by simp) hpoll⟩
        | data piece =>
          cases ha : (cy.compress piece).answer with
          | error f =>
            have hrefused : (going source cy (.frame (.data piece) :: script)).poll = _ :=
              poll_refused ha
            refine ⟨1, asks_one rfl (by rw [hrefused]; rfl) ?_ (by simp [Poll.settles])⟩
            simp [hrefused, abort, Polled.preceded]
          | ok out =>
            have htaken : (going source cy (.frame (.data piece) :: script)).poll = _ :=
              poll_taken ha
            by_cases ho : out = []
            · obtain ⟨k, hk⟩ := ih (cy.compress piece).after
              rw [if_pos ho] at htaken
              exact ⟨k + 1, asks_of_passed hk rfl htaken⟩
            · rw [if_neg ho] at htaken
              exact ⟨1, asks_one rfl (by rw [htaken]; rfl) (by simp [htaken])
                (by simp [Poll.settles])⟩
  · exact ⟨0, asks_of_not_reading hp⟩

end CodedBody

section alike

variable {σ : Type} [Compressor σ] {source source' : Source} {cy : Cycle σ}
  {script script' : List (Poll Cause)} {b b' : CodedBody σ} {v w : Playback σ}

/-- **Polls of two bodies came to the same**: the same answers but for waiting, the same events, and
the same to give up. -/
structure Playback.Alike (v w : Playback σ) : Prop where
  results : definite v.results = definite w.results
  events : v.events = w.events
  release : v.last.release = w.last.release

namespace Body

open CodedBody (going)

/-- Unpolled bodies of one cycle are alike. -/
theorem alike_unpolled (source source' : Source) (cy : Cycle σ)
    (script script' : List (Poll Cause)) :
    ((Body.coded (going source' cy script')).polls 0).Alike
      ((Body.coded (going source cy script)).polls 0) := ⟨rfl, rfl, rfl⟩

/-- Bodies that conclude alike are alike. -/
theorem alike_of_conclude {trailers : Option Fields}
    (hb : b.poll = CodedBody.conclude (going source cy script) trailers)
    (hb' : b'.poll = CodedBody.conclude (going source' cy script') trailers) (n : Nat) :
    ((Body.coded b').polls (n + 1)).Alike ((Body.coded b).polls (n + 1)) := by
  obtain ⟨hresults, hevents, phase, hlast, -⟩ := polls_of_conclude hb n
  obtain ⟨hresults', hevents', phase', hlast', -⟩ := polls_of_conclude hb' n
  refine ⟨?_, ?_, ?_⟩
  · rw [hresults, hresults']
  · rw [hevents, hevents']
  · rw [hlast, hlast']
    rfl

/-- Bodies that fail alike are alike. -/
theorem alike_of_abort {e : Failure} (es : List Event)
    (hb : b.poll = (CodedBody.abort (going source cy script) e).preceded es)
    (hb' : b'.poll = (CodedBody.abort (going source' cy script') e).preceded es) (n : Nat) :
    ((Body.coded b').polls (n + 1)).Alike ((Body.coded b).polls (n + 1)) := by
  rw [polls_of_abort hb, polls_of_abort hb']
  exact ⟨rfl, rfl, rfl⟩

/-- **A source that waits more takes more polls, and nothing else.** However often a body is polled,
there are as many polls or more of the other body that come to the same. -/
theorem alike_of_delays (hd : Delays script script') (source source' : Source) (cy : Cycle σ)
    (n : Nat) :
    ∃ m, n ≤ m ∧ ((Body.coded (going source' cy script')).polls m).Alike
      ((Body.coded (going source cy script)).polls n) := by
  -- along the delays: `wait` takes one poll more, and an answer as many as before
  induction hd generalizing cy n with
  | nil =>
    cases n with
    | zero => exact ⟨0, Nat.le_refl _, alike_unpolled ..⟩
    | succ n => exact ⟨n + 1, Nat.le_refl _, alike_of_conclude rfl rfl n⟩
  | @wait script script' _ ih =>
    obtain ⟨m, hm, h⟩ := ih cy n
    refine ⟨m + 1, by omega, ?_⟩
    rw [polls_pending]
    exact ⟨h.results, h.events, h.release⟩
  | @answer script script' p _ ih =>
    cases n with
    | zero => exact ⟨0, Nat.le_refl _, alike_unpolled ..⟩
    | succ n =>
      have hpoll := CodedBody.poll_going source cy (p :: script)
      have hpoll' := CodedBody.poll_going source' cy (p :: script')
      cases p with
      | ended => exact ⟨n + 1, Nat.le_refl _, alike_of_conclude hpoll hpoll' n⟩
      | failed e => exact ⟨n + 1, Nat.le_refl _, alike_of_abort [] hpoll hpoll' n⟩
      | pending =>
        obtain ⟨m, hm, h⟩ := ih cy n
        refine ⟨m + 1, by omega, ?_⟩
        rw [polls_pending, polls_pending]
        exact ⟨h.results, h.events, h.release⟩
      | frame x =>
        cases x with
        | trailers t => exact ⟨n + 1, Nat.le_refl _, alike_of_conclude hpoll hpoll' n⟩
        | data piece =>
          cases ha : (cy.compress piece).answer with
          | error f =>
            exact ⟨n + 1, Nat.le_refl _,
              alike_of_abort _ (CodedBody.poll_refused ha) (CodedBody.poll_refused ha) n⟩
          | ok out =>
            -- a piece that gives data takes a poll of its own, and one that gives none does not
            have hlen : (Frame.ofData out).length ≤ 1 := by
              unfold Frame.ofData
              split <;> simp
            obtain ⟨m, hm, h⟩ := ih (cy.compress piece).after (n + 1 - (Frame.ofData out).length)
            have hpolls :
                m + (Frame.ofData out).length - 1 + 1 - (Frame.ofData out).length = m := by omega
            refine ⟨m + (Frame.ofData out).length - 1 + 1, by omega, ?_⟩
            rw [polls_data ha, polls_data ha, hpolls]
            refine ⟨?_, ?_, h.release⟩
            · simp only [Poll.definite_append, h.results]
            · simp only [h.events]

end Body

end alike

/-- A body that reads no more does not wait. -/
theorem Body.pending_notMem_polls {σ : Type} [Compressor σ] {b : CodedBody σ}
    (h : b.phase ≠ .reading) (m : Nat) : .pending ∉ ((Body.coded b).polls m).results := by
  cases hp : b.phase with
  | reading => exact absurd hp h
  | done => simp [polls_of_done hp]
  | trailing t =>
    cases m with
    | zero => exact List.not_mem_nil
    | succ m => simp [polls_of_trailing hp]

/-- **Waiting changes nothing but the number of polls.** Where one source answers as another one
does, with waiting in between, the two coded bodies give the same answers but for waiting, and make
the same calls: whatever some polls of the one come to, as many polls or more of the other come to,
and no number of polls of the other is ahead of it. In each poll of a coded body its source is asked
a number of times, and the body answers that there is nothing yet just where the source did so then.
Where the source came to its end or failed then, the body does not wait, neither in this poll nor
later. -/
theorem transparent_of_delays {σ : Type} [Compressor σ] {source source' : Source}
    (hd : Delays source.script source'.script) (label : Octets) (id : Nat) (s : σ) :
    let v := (Body.coded (.start source label id s)).polls
    let v' := (Body.coded (.start source' label id s)).polls
    (∀ n, ∃ m, n ≤ m ∧ definite (v' m).results = definite (v n).results ∧
        (v' m).events = (v n).events ∧ (v' m).last.release = (v n).last.release) ∧
      (∀ n, definite (v' n).results <+: definite (v n).results ∧
        (v' n).events <+: (v n).events) ∧
      ∀ b : CodedBody σ, ∃ k, b.poll.after.source = (b.source.polls k).2 ∧
        (b.poll.result = .pending ↔ .pending ∈ (b.source.polls k).1) ∧
        ((∃ p ∈ (b.source.polls k).1, p.settles) →
          ∀ m, .pending ∉ ((Body.coded b).polls m).results) := by
  intro v v'
  have halike (n : Nat) : ∃ m, n ≤ m ∧ (v' m).Alike (v n) :=
    Body.alike_of_delays hd source source' (Cycle.coding label id s) n
  refine ⟨fun n => ?_, fun n => ?_, fun b => ?_⟩
  · obtain ⟨m, hm, h⟩ := halike n
    exact ⟨m, hm, h.results, h.events, h.release⟩
  · -- the polls that come to the same are more, and go on from these
    obtain ⟨m, hm, h⟩ := halike n
    obtain ⟨k, rfl⟩ := Nat.exists_eq_add_of_le hm
    rw [← h.results, ← h.events]
    simp only [v', Body.polls_add, Poll.definite_append]
    exact ⟨List.prefix_append .., List.prefix_append ..⟩
  · obtain ⟨k, hleft, hwaits, hsettles⟩ := b.poll_asks
    refine ⟨k, hleft, hwaits, fun hs m => ?_⟩
    obtain ⟨hresult, hphase⟩ := hsettles hs
    cases m with
    | zero => exact List.not_mem_nil
    | succ m =>
      rw [Body.polls_coded]
      intro hmem
      rcases List.mem_cons.1 hmem with hmem | hmem
      · exact hresult hmem.symm
      · exact Body.pending_notMem_polls hphase m hmem

section script

open Scripted

/-- The same source without its waiting. -/
def resolute : Source :=
  { script := [.frame (.data [1]), .frame (.data [2]), .frame (.trailers []), .frame (.data [7])] }

/-- What four polls of a body come to, five come to where its source waits in between. -/
theorem transparent_of_hesitant :
    let v := (Body.coded (.start resolute [] 0 echoing)).polls
    let v' := (Body.coded (.start hesitant [] 0 echoing)).polls
    Delays resolute.script hesitant.script ∧
      (v 4).results = [.frame (.data [1]), .frame (.data [2]), .frame (.data [9]),
        .frame (.trailers [])] ∧
      (∃ m, 4 ≤ m ∧ definite (v' m).results = definite (v 4).results ∧
        (v' m).events = (v 4).events ∧ (v' m).last.release = (v 4).last.release) ∧
      definite (v' 2).results = [.frame (.data [1])] ∧
      definite (v' 2).results <+: definite (v 2).results := by
  intro v v'
  have hd : Delays resolute.script hesitant.script :=
    .answer _ (.wait (.answer _ (.answer _ (.answer _ .nil))))
  obtain ⟨hsame, hahead, -⟩ := transparent_of_delays hd [] 0 echoing
  exact ⟨hd, by decide, hsame 4, by decide, (hahead 2).1⟩

end script

end ContentCoding
