import ContentCoding.Proofs.Pairing
import ContentCoding.Proofs.Traffic
import Mathlib.Data.List.Forall2

/-!
# When requests come in and messages are taken

A response needs the oldest request that waits, and nothing of what is still to be sent. So a run
that went well goes well, too, and comes to the same, where requests come in sooner and messages are
taken at other times.

* `Hastens`: the same requests and the same messages, with no request later than it was.
* `Ahead`: the same operation by operation, with the requests that one run is ahead of the other.
* `write_leading`: requests behind the oldest, and what is to be sent, are nothing to a write.
* `same_of_hastens`: **a run that is hastened comes to the same.**
-/

namespace ContentCoding

/-- Whether an operation takes messages. -/
def Operation.takes : Operation → Bool
  | .read | .drain => true
  | .record _ | .write _ | .deactivate => false

/-- **When requests came in**: for each of them, how many messages were written before it. -/
def arrivals : List Operation → List Nat
  | [] => []
  | .record _ :: ops => 0 :: arrivals ops
  | .write _ :: ops => (arrivals ops).map (· + 1)
  | .read :: ops | .drain :: ops | .deactivate :: ops => arrivals ops

/-- **A run that is hastened**: the same requests come in, none later than before, and the same
messages are written. Messages are taken at any time, and the connection does not end. -/
structure Hastens (ops ops' : List Operation) : Prop where
  recorded : recorded ops' = recorded ops
  messages : messages ops' = messages ops
  sooner : List.Forall₂ (· ≤ ·) (arrivals ops') (arrivals ops)
  lasting : .deactivate ∉ ops ∧ .deactivate ∉ ops'

/-- **Ahead**: the second run does what the first one does, once these requests have come in that it
has recorded already. -/
inductive Ahead : List Request → List Operation → List Operation → Prop
  | nil : Ahead [] [] []
  | write {early : List Request} {ops ops' : List Operation} (m : Message) : Ahead early ops ops' →
      Ahead early (.write m :: ops) (.write m :: ops')
  | sooner {early : List Request} {ops ops' : List Operation} (r : Request) :
      Ahead (early ++ [r]) ops ops' → Ahead early ops (.record r :: ops')
  | later {early : List Request} {ops ops' : List Operation} (r : Request) :
      Ahead early ops ops' → Ahead (r :: early) (.record r :: ops) ops'
  | takes {early : List Request} {ops ops' : List Operation} {op : Operation} : op.takes = true →
      Ahead early ops ops' → Ahead early (op :: ops) ops'
  | taken {early : List Request} {ops ops' : List Operation} {op : Operation} : op.takes = true →
      Ahead early ops ops' → Ahead early ops (op :: ops')

/-- **The first run lags behind** by these requests, and will come to the same otherwise. -/
structure Lags (early : List Request) (ops ops' : List Operation) : Prop where
  recorded : recorded ops = early ++ recorded ops'
  messages : messages ops = messages ops'
  sooner : List.Forall₂ (· ≤ ·) (arrivals ops') ((arrivals ops).drop early.length)
  lasting : .deactivate ∉ ops ∧ .deactivate ∉ ops'

section ahead

variable {early : List Request} {ops ops' : List Operation} {m : Message}

/-- What is left of a run in which nothing more is written: the requests that are ahead. -/
theorem ahead_nil (hr : recorded ops = early) (hm : messages ops = []) (hd : .deactivate ∉ ops) :
    Ahead early ops [] := by
  induction ops generalizing early with
  | nil =>
    obtain rfl : [] = early := hr
    exact .nil
  | cons op ops ih =>
    have hrest := List.not_mem_of_not_mem_cons hd
    cases op with
    | record r =>
      obtain rfl : r :: recorded ops = early := hr
      exact .later r (ih rfl hm hrest)
    | write m => cases hm
    | read | drain => exact .takes rfl (ih hr hm hrest)
    | deactivate => exact absurd (List.mem_cons_self ..) hd

/-- A message is written in both runs once the first one has come to it. Until then it records only
requests that are ahead, since none comes in later than before. -/
theorem ahead_write (ih : ∀ {early : List Request} {ops : List Operation},
      Lags early ops ops' → Ahead early ops ops')
    (h : Lags early ops (.write m :: ops')) : Ahead early ops (.write m :: ops') := by
  induction ops generalizing early with
  | nil => cases h.messages
  | cons op ops ihops =>
    obtain ⟨hr, hm, hle, hd, hd'⟩ := h
    have hrest := List.not_mem_of_not_mem_cons hd
    cases op with
    | write m' =>
      obtain ⟨rfl, hmrest⟩ := List.cons.inj hm
      refine .write m' (ih ⟨hr, hmrest, ?_, hrest, List.not_mem_of_not_mem_cons hd'⟩)
      rw [arrivals, arrivals, ← List.map_drop, List.forall₂_map_left_iff,
        List.forall₂_map_right_iff] at hle
      exact hle.imp fun a b h => Nat.le_of_succ_le_succ h
    | record r =>
      cases early with
      | nil =>
        -- the request would come in later in the second run
        have hnow : List.Forall₂ (· ≤ ·) ((arrivals ops').map (· + 1)) (0 :: arrivals ops) := hle
        cases ha : arrivals ops' with
        | nil =>
          rw [ha] at hnow
          cases hnow
        | cons n late =>
          rw [ha] at hnow
          obtain ⟨hn, -⟩ := List.forall₂_cons.1 hnow
          exact absurd hn (Nat.not_succ_le_zero n)
      | cons r' early =>
        obtain ⟨rfl, hrrest⟩ := List.cons.inj hr
        exact .later r (ihops ⟨hrrest, hm, hle, hrest, hd'⟩)
    | read | drain => exact .takes rfl (ihops ⟨hr, hm, hle, hrest, hd'⟩)
    | deactivate => exact absurd (List.mem_cons_self ..) hd

/-- **Where the first run lags behind, the second one is ahead.** -/
theorem ahead_of_lags (h : Lags early ops ops') : Ahead early ops ops' := by
  induction ops' generalizing early ops with
  | nil => exact ahead_nil (h.recorded.trans (List.append_nil early)) h.messages h.lasting.1
  | cons op ops' ih =>
    cases op with
    | write m => exact ahead_write ih h
    | deactivate => exact absurd (List.mem_cons_self ..) h.lasting.2
    | read | drain =>
      obtain ⟨hr, hm, hle, hd, hd'⟩ := h
      exact .taken rfl (ih ⟨hr, hm, hle, hd, List.not_mem_of_not_mem_cons hd'⟩)
    | record r =>
      obtain ⟨hr, hm, hle, hd, hd'⟩ := h
      refine .sooner r (ih ⟨?_, hm, ?_, hd, List.not_mem_of_not_mem_cons hd'⟩)
      · rw [hr, List.append_assoc]
        rfl
      · have hlater := List.forall₂_drop 1 hle
        rw [List.drop_drop] at hlater
        rw [List.length_append]
        exact hlater

theorem Hastens.ahead (h : Hastens ops ops') : Ahead [] ops ops' :=
  ahead_of_lags ⟨h.recorded.symm, h.messages.symm, h.sooner, h.lasting⟩

end ahead

namespace Connection

variable {δ σ : Type} [Decision δ σ] [Compressor σ] {c : Connection δ σ} {m : Message}
  {early : List Request} {ops ops' : List Operation}

/-- **The same stage with more requests**, which wait behind the others, and this to be sent. -/
def leading (c : Connection δ σ) (early : List Request) (out : List Message) : Connection δ σ :=
  { c with backlog := ⟨c.backlog.waiting ++ early⟩, outbound := out }

omit [Compressor σ] in
theorem started_leading {r : Request} {rest : List Request} (hb : c.backlog.waiting = r :: rest)
    (early : List Request) (out : List Message) (head : Head) (body : BodyKind) :
    (c.leading early out).started r head body = (c.started r head body).leading early out := by
  by_cases hi : head.status.isInterim
  · simp [started, leading, Backlog.matched, hi, negotiated]
  · simp [started, leading, Backlog.matched, hi, negotiated, hb]

/-- **More requests, and what is to be sent, are nothing to a write** that is accepted. -/
theorem write_leading (hok : (c.write m).answer = .ok ()) (early : List Request)
    (out : List Message) :
    ∃ ms, (c.write m).after.outbound = c.outbound ++ ms ∧
      (c.leading early out).write m =
        ⟨.ok (), (c.write m).after.leading early (out ++ ms), (c.write m).events⟩ := by
  have hw := c.wrote m
  generalize c.write m = w at hw hok ⊢
  cases hw with
  | terminated | overlaps | unmatched | headless | chunkFailed | aggregateFailed => cases hok
  | @head h r rest n ha hc hb hn =>
    subst hn
    have hb' : (c.leading early out).backlog.waiting = r :: (rest ++ early) := by
      simp [leading, hb]
    refine ⟨_, rfl, ?_⟩
    rw [write_of_waiting (c := c.leading early out) ha hc hb']
    simp only [started_leading hb]
    rfl
  | @chunk k cy ms ha hc hs =>
    refine ⟨ms, rfl, ?_⟩
    rw [write_of_sent (c := c.leading early out) ha hc hs]
    rfl
  | @aggregate a r rest n ms ha hc hb hn hs =>
    subst hn
    have hb' : (c.leading early out).backlog.waiting = r :: (rest ++ early) := by
      simp [leading, hb]
    refine ⟨ms, rfl, ?_⟩
    rw [write_of_whole (c := c.leading early out) ha hc hb' hs]
    simp only [started_leading hb]
    rfl

/-- What is taken from a stage was to be sent, and nothing else of it changes. -/
theorem perform_of_takes {op : Operation} (h : op.takes = true) (c : Connection δ σ) :
    ∃ ms out, c.outbound = ms ++ out ∧ c.perform op = ⟨.ok ms, { c with outbound := out }, []⟩ := by
  cases op with
  | read =>
    refine ⟨c.outbound.head?.toList, c.outbound.tail, ?_, rfl⟩
    cases c.outbound <;> rfl
  | drain => exact ⟨c.outbound, [], (List.append_nil _).symm, rfl⟩
  | record r | write m | deactivate => cases h

/-- An operation that takes these messages and makes no event comes before the others. -/
theorem run_of_quiet {op : Operation} {taken : List Message} {c' : Connection δ σ}
    (hp : c.perform op = ⟨.ok taken, c', []⟩) (ops : List Operation) :
    c.run (op :: ops) =
      { c'.run ops with answers := .ok taken :: (c'.run ops).answers } := by
  rw [run, hp]
  rfl

omit [Decision δ σ] [Compressor σ] in
/-- **A run comes to the same** as another one, where this was to be sent before each of them: all
of it was accepted, the events are the same, the same messages were sent, and the stages after them
differ in what is still to be taken. -/
structure History.Same (h h' : History δ σ) (out out' : List Message) : Prop where
  accepted : ∀ a ∈ h'.answers, ∃ ms, a = .ok ms
  events : h'.events = h.events
  sent : ∃ ms, h.taken ++ h.last.outbound = out ++ ms ∧ h'.taken ++ h'.last.outbound = out' ++ ms
  last : h'.last = { h.last with outbound := h'.last.outbound }

namespace History.Same

variable {h h' : History δ σ} {out out' : List Message}

omit [Decision δ σ] [Compressor σ]

/-- The first run takes messages before. -/
theorem left (hs : h.Same h' out out') (taken : List Message) :
    Same { h with answers := .ok taken :: h.answers } h' (taken ++ out) out' := by
  obtain ⟨hok, hev, ⟨ms, hsent, hsent'⟩, hlast⟩ := hs
  refine ⟨hok, hev, ⟨ms, ?_, hsent'⟩, hlast⟩
  have htaken : History.taken { h with answers := .ok taken :: h.answers } = taken ++ h.taken := rfl
  rw [htaken, List.append_assoc, List.append_assoc, hsent]

/-- The second run takes messages before. -/
theorem right (hs : h.Same h' out out') (taken : List Message) :
    h.Same { h' with answers := .ok taken :: h'.answers } out (taken ++ out') := by
  obtain ⟨hok, hev, ⟨ms, hsent, hsent'⟩, hlast⟩ := hs
  refine ⟨List.forall_mem_cons.2 ⟨⟨taken, rfl⟩, hok⟩, hev, ⟨ms, hsent, ?_⟩, hlast⟩
  have htaken : History.taken { h' with answers := .ok taken :: h'.answers } = taken ++ h'.taken :=
    rfl
  rw [htaken, List.append_assoc, List.append_assoc, hsent']

end History.Same

/-- **A write in both runs**: the same messages are to be sent for it, behind the others. -/
theorem same_write {ms out : List Message} {c' after' : Connection δ σ}
    (hok : (c.write m).answer = .ok ()) (hout : (c.write m).after.outbound = c.outbound ++ ms)
    (hw : c'.write m = ⟨.ok (), after', (c.write m).events⟩)
    (hs : ((c.write m).after.run ops).Same (after'.run ops') (c.write m).after.outbound
      (out ++ ms)) :
    (c.run (.write m :: ops)).Same (c'.run (.write m :: ops')) c.outbound out := by
  obtain ⟨hacc, hev, ⟨more, hsent, hsent'⟩, hlast⟩ := hs
  rw [hout] at hsent
  have hp : c.perform (.write m) = ⟨.ok [], (c.write m).after, (c.write m).events⟩ := by
    rw [perform, Step.map, hok]
    rfl
  have hp' : c'.perform (.write m) = ⟨.ok [], after', (c.write m).events⟩ := by
    rw [perform, Step.map, hw]
    rfl
  simp only [run, hp, hp']
  refine ⟨List.forall_mem_cons.2 ⟨⟨[], rfl⟩, hacc⟩, congrArg ((c.write m).events ++ ·) hev,
    ⟨ms ++ more, ?_, ?_⟩, hlast⟩
  · rw [← List.append_assoc]
    exact hsent
  · rw [← List.append_assoc]
    exact hsent'

/-- **A run that is ahead comes to the same**, if all of the other one was accepted. -/
theorem same_of_ahead (h : Ahead early ops ops') (out : List Message)
    (hok : ∀ a ∈ (c.run ops).answers, ∃ ms, a = .ok ms) :
    (c.run ops).Same ((c.leading early out).run ops') c.outbound out := by
  induction h generalizing c out with
  | nil =>
    refine ⟨hok, rfl, ⟨[], ?_, ?_⟩, ?_⟩
    · exact (List.append_nil _).symm
    · exact (List.append_nil _).symm
    · simp [run, leading]
  | @write early ops ops' m _ ih =>
    have hans : (c.write m).answer = .ok () := by
      obtain ⟨ms, hms⟩ := hok _ (List.mem_cons_self ..)
      obtain ⟨⟨⟩, hans, -⟩ := ok_of_map hms
      exact hans
    obtain ⟨ms, hout, hw⟩ := write_leading hans early out
    have hs := ih (c := (c.write m).after) (out ++ ms) fun a ha => hok a (List.mem_cons_of_mem _ ha)
    exact same_write hans hout hw hs
  | @sooner early ops ops' r _ ih =>
    have hp : (c.leading early out).perform (.record r) =
        ⟨.ok [], c.leading (early ++ [r]) out, []⟩ := by
      simp [perform, record, leading, Backlog.record, Step.pure]
    rw [run_of_quiet hp]
    exact (ih out hok).right []
  | @later early ops ops' r _ ih =>
    have hc : c.leading (r :: early) out = (c.record r).leading early out := by
      simp [leading, record, Backlog.record]
    have hp : c.perform (.record r) = ⟨.ok [], c.record r, []⟩ := rfl
    rw [run_of_quiet hp] at hok ⊢
    rw [hc]
    exact (ih out fun a ha => hok a (List.mem_cons_of_mem _ ha)).left []
  | @takes early ops ops' op hop _ ih =>
    obtain ⟨taken, left, hout, hp⟩ := perform_of_takes hop c
    rw [run_of_quiet hp] at hok ⊢
    rw [hout]
    exact (ih out fun a ha => hok a (List.mem_cons_of_mem _ ha)).left taken
  | @taken early ops ops' op hop _ ih =>
    obtain ⟨taken, left, hout, hp⟩ := perform_of_takes hop (c.leading early out)
    rw [run_of_quiet hp]
    rw [show out = taken ++ left from hout]
    exact (ih left hok).right taken

/-- **A run that is hastened comes to the same.** Where the same requests come in and the same
messages are written, no request later than in a run in which all was accepted, and messages are
taken at any time, all is accepted again. The events are the same: the decision is consulted and the
compressors are called alike. The messages taken, with those still to be sent behind them, are the
same; and so is the stage, but for how far it was emptied. -/
theorem same_of_hastens (c : Connection δ σ) (h : Hastens ops ops')
    (hok : ∀ a ∈ (c.run ops).answers, ∃ ms, a = .ok ms) :
    let v := c.run ops
    let v' := c.run ops'
    (∀ a ∈ v'.answers, ∃ ms, a = .ok ms) ∧ v'.events = v.events ∧
      v'.taken ++ v'.last.outbound = v.taken ++ v.last.outbound ∧
      v'.last = { v.last with outbound := v'.last.outbound } := by
  have hc : c.leading [] c.outbound = c := by simp [leading]
  obtain ⟨hacc, hev, ⟨ms, hsent, hsent'⟩, hlast⟩ := same_of_ahead h.ahead c.outbound hok
  rw [hc] at hacc hev hsent' hlast
  exact ⟨hacc, hev, hsent'.trans hsent.symm, hlast⟩

section script

open Scripted

/-- The second request comes in once the first one is answered, and all is taken in the end. -/
def inTurn : List Operation :=
  [.record ⟨.get, none⟩, .write (.head {}), .write (.chunk { payload := [1, 2], last := true }),
    .record ⟨.head, none⟩, .write (.aggregate ⟨{}, [3], none⟩), .drain]

/-- Both requests come in before they are answered, and of the messages the head is taken. -/
def atOnce : List Operation :=
  [.record ⟨.get, none⟩, .read, .record ⟨.head, none⟩, .write (.head {}), .read,
    .write (.chunk { payload := [1, 2], last := true }), .write (.aggregate ⟨{}, [3], none⟩)]

/-- Requests that come in at once are answered as they are in turn. -/
theorem same_of_atOnce :
    let c : Connection Script Machine := new ⟨[some ⟨Octets.ofString "x", {}⟩], 0⟩
    let v := c.run inTurn
    let v' := c.run atOnce
    Hastens inTurn atOnce ∧ (∀ a ∈ v.answers, ∃ ms, a = .ok ms) ∧
      (∀ a ∈ v'.answers, ∃ ms, a = .ok ms) ∧ v'.events = v.events ∧ v.taken.length = 4 ∧
      v'.taken.length = 1 ∧ v'.taken ++ v'.last.outbound = v.taken ++ v.last.outbound := by
  intro c v v'
  have hsooner : List.Forall₂ (· ≤ ·) [0, 0] [0, 2] :=
    .cons (Nat.le_refl 0) (.cons (Nat.zero_le 2) .nil)
  have hh : Hastens inTurn atOnce := ⟨rfl, rfl, hsooner, by decide, by decide⟩
  have hok : ∀ a ∈ v.answers, ∃ ms, a = .ok ms := by
    have hall : v.answers.all Except.isOk = true := by decide
    intro a ha
    cases a with
    | ok ms => exact ⟨ms, rfl⟩
    | error f => cases List.all_eq_true.1 hall _ ha
  obtain ⟨hok', hev, hsent, -⟩ := same_of_hastens c hh hok
  exact ⟨hh, hok, hok', hev, by decide, by decide, hsent⟩

end script

end Connection

end ContentCoding
