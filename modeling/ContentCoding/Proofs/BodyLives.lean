import ContentCoding.Proofs.BodyOutput
import ContentCoding.Proofs.Lifetimes

/-!
# The life of a body's compressor

A coded body has one compressor. Polls of the body give it the data of the source, and it is closed
by the poll that comes to an end, or else when the body is destroyed.

* `Accords`: what polls of a body came to, beside the life of its compressor and the polls of its
  source.
* `Accords.prepend`: one more answer of the source in front.
* `accords_of_abort`, `accords_of_conclude`: the two ways to come to an end.
* `life_of_polls`: **however often a body is polled before it is destroyed, its compressor lives
  once.**
-/

namespace ContentCoding

theorem Source.polls_rest (source : Source) (p : Poll Cause) (script : List (Poll Cause))
    (k : Nat) :
    (source.rest (p :: script)).polls (k + 1) =
      (p :: ((source.rest script).polls k).1, ((source.rest script).polls k).2) := rfl

/-- The same life with these pieces before its own. -/
def Life.before (l : Life) (pieces : List (Octets × Except Cause Octets))
    (h : ∀ p ∈ pieces, ∃ out, p.2 = .ok out) : Life where
  id := l.id
  pieces := pieces ++ l.pieces
  finish := l.finish
  close := l.close
  unfailed hf p hp := (List.mem_append.1 hp).elim (h p) (l.unfailed hf p)

section accords

variable {σ : Type} [Compressor σ]

/-- **What polls of a body came to is told by the life of its compressor and the polls of its
source.** The calls, with the destruction of the body behind them, are the life. The source was
polled so many times, of which only the last may settle anything; its data are the pieces, and only
behind its end is the compressor asked to finish. Once that was asked or a poll has settled, nothing
more is called, by polls or by the destruction of the body. -/
structure Playback.Accords (v : Playback σ) (source : Source) (life : Life) (k : Nat) : Prop where
  calls : .opened life.id :: (v.events ++ v.last.release) = life.events
  left : v.last.source = (source.polls k).2
  reading : ∀ p ∈ (source.polls k).1.dropLast, p.settles = false
  pieces : life.pieces.map Prod.fst = (source.polls k).1.filterMap Poll.data?
  finish : life.finish ≠ none → ∃ p, (source.polls k).1.getLast? = some p ∧ p.closes
  closed : (∃ r ∈ v.results, r.settles) ∨ life.finish ≠ none →
    v.last.release = [] ∧ ∀ m, (v.last.polls m).events = []

variable {source : Source} {script : List (Poll Cause)} {p : Poll Cause} {label : Octets}
  {id k : Nat} {s : σ} {life : Life} {v w : Playback σ} {b : CodedBody σ}
  {pieces : List (Octets × Except Cause Octets)}

/-- **One more answer in front**, which settles nothing. -/
theorem Playback.Accords.prepend (h : v.Accords (source.rest script) life k)
    (front : List (Poll Failure)) (hp : p.settles = false)
    (hpieces : pieces.map Prod.fst = [p].filterMap Poll.data?)
    (hok : ∀ p ∈ pieces, ∃ out, p.2 = .ok out)
    (hfront : ∀ r ∈ front, r.settles = false) (hresults : w.results = front ++ v.results)
    (hevents : w.events = Life.feeding life.id pieces ++ v.events) (hlast : w.last = v.last) :
    w.Accords (source.rest (p :: script)) (life.before pieces hok) (k + 1) := by
  have hpolls := source.polls_rest p script k
  obtain ⟨hcalls, hleft, hreading, hdata, hfinish, hclosed⟩ := h
  refine ⟨?_, ?_, ?_, ?_, ?_, ?_⟩
  · simp only [Life.events, Life.before, List.cons.injEq, true_and] at hcalls ⊢
    rw [hevents, hlast, List.append_assoc, hcalls]
    simp [Life.feeding]
  · rw [hlast, hleft, hpolls]
  · rw [hpolls]
    cases hq : ((source.rest script).polls k).1 with
    | nil => simp
    | cons q qs =>
      rw [hq] at hreading
      simpa [hp] using hreading
  · rw [hpolls, ← List.singleton_append, List.filterMap_append, ← hpieces, ← hdata]
    exact List.map_append
  · intro hf
    obtain ⟨q, hq, hcloses⟩ := hfinish hf
    exact ⟨q, by simp [hpolls, List.getLast?_cons, hq], hcloses⟩
  · intro hd
    rw [hlast]
    refine hclosed (hd.imp_left ?_)
    rintro ⟨r, hr, hset⟩
    rw [hresults, List.mem_append] at hr
    rcases hr with hr | hr
    · rw [hfront r hr] at hset
      cases hset
    · exact ⟨r, hr, hset⟩

theorem Cycle.events_close_coding (label : Octets) (id : Nat) (s : σ) :
    (Cycle.coding label id s).close.events = [.closed id (Compressor.close s).1] := rfl

/-- The end of a body is the end of a life. -/
theorem Cycle.events_finish_coding (label : Octets) (id : Nat) (s : σ) :
    ∃ finish close,
      (Cycle.coding label id s).finish.events = Life.finishing id finish ++ [.closed id close] := by
  have hclose (l : Lease σ) (hl : l.closed = false) :
      l.close.events = [.closed l.id (Compressor.close l.compressor).1] := by
    simp [Lease.close, hl]
  have hevents : (Cycle.coding label id s).finish.events =
      (Lease.mk id s false).finish.events ++ (Lease.mk id s false).finish.after.close.events := rfl
  rw [hevents, Lease.finish]
  -- a compressor that says it is finished is closed without a call to finish
  cases h : Compressor.isFinished s with
  | true => exact ⟨none, (Compressor.close s).1, hclose _ rfl⟩
  | false =>
    have hlast := hclose ⟨id, (Compressor.finish s).2, false⟩ rfl
    exact ⟨some (Compressor.finish s).1, _, congrArg (Event.finished id _ :: ·) hlast⟩

/-- A body that is destroyed before it is polled closes its compressor, and that is all. -/
theorem accords_of_unpolled (source : Source) (script : List (Poll Cause)) (label : Octets)
    (id : Nat) (s : σ) :
    ((Body.coded (.going source (Cycle.coding label id s) script)).polls 0).Accords
      (source.rest script) ⟨id, [], none, (Compressor.close s).1, nofun⟩ 0 where
  calls := rfl
  left := rfl
  reading := nofun
  pieces := rfl
  finish := nofun
  closed hd := by simp [Body.polls] at hd

/-- **A failure** closes the compressor, whether it was one of the source or of the last piece. -/
theorem accords_of_abort {e : Failure} (pieces : List (Octets × Except Cause Octets))
    (hb : b.poll = (CodedBody.abort (.going source (Cycle.coding label id s) script) e).preceded
      (Life.feeding id pieces))
    (hpieces : pieces.map Prod.fst = [p].filterMap Poll.data?) (n : Nat) :
    ∃ life k, life.id = id ∧
      ((Body.coded b).polls (n + 1)).Accords (source.rest (p :: script)) life k := by
  rw [Body.polls_of_abort hb]
  have hrelease := (Cycle.coding label id s).release_close
  refine ⟨⟨id, pieces, none, (Compressor.close s).1, nofun⟩, 1, rfl, ?_, rfl, nofun, hpieces, nofun,
    fun _ => ⟨hrelease, Body.events_polls Phase.noConfusion⟩⟩
  simp [Life.events, Life.finishing, CodedBody.going, Body.release, hrelease,
    Cycle.events_close_coding]

/-- **The end of the source** finishes and closes the compressor. -/
theorem accords_of_conclude {trailers : Option Fields} (hs : source.poll = (p, source.rest script))
    (hp : p.closes)
    (hb : b.poll = CodedBody.conclude (.going source (Cycle.coding label id s) script) trailers)
    (n : Nat) :
    ∃ life k, life.id = id ∧ ((Body.coded b).polls (n + 1)).Accords source life k := by
  obtain ⟨-, hevents, phase, hlast, hphase, -⟩ := Body.polls_of_conclude hb n
  obtain ⟨finish, close, hfin⟩ := Cycle.events_finish_coding label id s
  have hrelease : ((Body.coded b).polls (n + 1)).last.release = [] := by
    rw [hlast]
    exact Cycle.release_finish
  have hpolls : source.polls 1 = ([p], source.rest script) := by simp [Source.polls, hs]
  have hdata : p.data? = none := by
    cases p with
    | frame x => cases x <;> first | rfl | cases hp
    | _ => rfl
  have hover (m : Nat) : (((Body.coded b).polls (n + 1)).last.polls m).events = [] := by
    rw [hlast]
    exact Body.events_polls hphase m
  refine ⟨⟨id, [], finish, close, fun _ => List.forall_mem_nil _⟩, 1, rfl, ?_, ?_, ?_, ?_, ?_,
    fun _ => ⟨hrelease, hover⟩⟩
  · rw [hevents, hrelease, hfin]
    simp [Life.events, Life.feeding]
  · rw [hlast, hpolls]
    rfl
  · simp [hpolls]
  · simp [hpolls, hdata]
  · exact fun _ => ⟨p, by simp [hpolls], hp⟩

/-- **However often a coded body is polled before it is destroyed, its compressor lives once.** It
is given the data that were pulled from the source, each once and in order. Only behind the end of
these data, and only where it took all of them, is it asked to finish. It is closed once, by the
first poll that answers what the finished form gave, the trailer fields, a failure or the end, and
otherwise by the destruction of the body. Behind its close nothing is called. -/
theorem life_of_polls (source : Source) (label : Octets) (id : Nat) (s : σ) (n : Nat) :
    ∃ (life : Life) (k : Nat), life.id = id ∧
      ((Body.coded (.start source label id s)).polls n).Accords source life k := by
  -- the induction is on what the source is still going to do
  suffices hgoing : ∀ (script : List (Poll Cause)) (s : σ) (n : Nat),
      ∃ (life : Life) (k : Nat), life.id = id ∧
        ((Body.coded (.going source (Cycle.coding label id s) script)).polls n).Accords
          (source.rest script) life k from hgoing source.script s n
  intro script
  induction script with
  | nil =>
    intro s n
    cases n with
    | zero => exact ⟨_, 0, rfl, accords_of_unpolled source [] label id s⟩
    | succ n =>
      have hs : (source.rest []).poll = (.ended, (source.rest []).rest []) := rfl
      exact accords_of_conclude hs rfl rfl n
  | cons p script ih =>
    intro s n
    cases n with
    | zero => exact ⟨_, 0, rfl, accords_of_unpolled source (p :: script) label id s⟩
    | succ n =>
      have hpoll : (CodedBody.going source (Cycle.coding label id s) (p :: script)).poll = _ :=
        CodedBody.poll_going ..
      have hs : (source.rest (p :: script)).poll = (p, (source.rest (p :: script)).rest script) :=
        rfl
      cases p with
      | ended => exact accords_of_conclude hs rfl hpoll n
      | failed e => exact accords_of_abort [] hpoll rfl n
      | pending =>
        obtain ⟨life, k, hid, h⟩ := ih s n
        rw [Body.polls_pending]
        refine ⟨life.before [] (List.forall_mem_nil _), k + 1, hid, ?_⟩
        exact h.prepend [.pending] rfl rfl _ (by simp [Poll.settles]) rfl rfl rfl
      | frame x =>
        cases x with
        | trailers t => exact accords_of_conclude hs rfl hpoll n
        | data piece =>
          obtain ⟨answer, t, hc⟩ : ∃ answer t, Compressor.compress s piece = (answer, t) :=
            ⟨_, _, rfl⟩
          have hstep := Cycle.compress_coding label id hc
          cases answer with
          | error cause =>
            have hrefused : (CodedBody.going source (Cycle.coding label id s)
                (.frame (.data piece) :: script)).poll = _ :=
              CodedBody.poll_refused (congrArg Step.answer hstep)
            rw [hstep] at hrefused
            exact accords_of_abort [(piece, .error cause)] hrefused rfl n
          | ok out =>
            have htaken : (Body.coded (.going source (Cycle.coding label id s)
                (.frame (.data piece) :: script))).polls (n + 1) = _ :=
              Body.polls_data (congrArg Step.answer hstep) n
            obtain ⟨life, k, hid, h⟩ := ih t (n + 1 - (Frame.ofData out).length)
            have hok : ∀ p ∈ [(piece, Except.ok (ε := Cause) out)], ∃ out, p.2 = .ok out := by simp
            refine ⟨life.before _ hok, k + 1, hid, ?_⟩
            rw [htaken, hstep]
            refine h.prepend ((Frame.ofData out).map .frame) rfl rfl hok ?_ rfl ?_ rfl
            · intro r hr
              obtain ⟨x, hx, rfl⟩ := List.mem_map.1 hr
              exact Frame.settles_of_mem_ofData hx
            · rw [hid]
              rfl

end accords

end ContentCoding
