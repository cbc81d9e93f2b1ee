import ContentCoding.Proofs.Announcement
import ContentCoding.Proofs.CodedHeads
import ContentCoding.Proofs.Lifetimes
import ContentCoding.Proofs.Traffic

/-!
# Bodies of coded responses

What leaves for the body of a coded response is told by the calls of its compressor alone: the
pieces that it took and what it gave for each, and how it was finished. A body that is streamed and
one that is whole differ in how they are written, not in what leaves for them.

* `Compressor.Codes`: the calls by which a compressor codes a body.
* `Message.translation`: the messages that these calls come to.
* `sendAll_body`: a cycle that was given a whole body has sent its translation.
* `run_pieces`: a run that writes pieces of a body sends them through its cycle, one by one.
* `translated_of_run`: **a streamed response leaves as its head and the translation of its body.**
* `whole_as_streamed`: **a whole response leaves as one that is streamed in its last chunk**, with
  the length of what leaves where it declared one; or nothing of it ever leaves.
-/

namespace ContentCoding

namespace Compressor

variable {σ : Type} [Compressor σ] {s t u : σ} {pieces more : List (Octets × Octets)}
  {input out : Octets} {rest : Option Octets}

/-- **Pieces that a compressor takes**, one after another, each with what it gives for it. -/
inductive Takes : σ → List (Octets × Octets) → σ → Prop
  | done {s : σ} : Takes s [] s
  | piece {s t u : σ} {input out : Octets} {pieces : List (Octets × Octets)} :
      Compressor.compress s input = (.ok out, t) → Takes t pieces u →
      Takes s ((input, out) :: pieces) u

/-- **The end of a coded form**, with the rest of it. A compressor that is finished is not asked. -/
inductive Finishes : σ → Option Octets → σ → Prop
  | already {s : σ} : Compressor.isFinished s = true → Finishes s none s
  | asked {s t : σ} {rest : Octets} : Compressor.isFinished s = false →
      Compressor.finish s = (.ok rest, t) → Finishes s (some rest) t

/-- A compressor comes to its end, or fails to. -/
theorem finishes_cases (s : σ) :
    (∃ rest t, Finishes s rest t) ∨
      Compressor.isFinished s = false ∧ ∃ cause t, Compressor.finish s = (.error cause, t) := by
  cases hi : Compressor.isFinished s with
  | true => exact .inl ⟨none, s, .already hi⟩
  | false =>
    cases hf : Compressor.finish s with
    | mk answer t =>
      cases answer with
      | ok rest => exact .inl ⟨some rest, t, .asked hi hf⟩
      | error cause => exact .inr ⟨rfl, cause, t, rfl⟩

/-- **A compressor codes a body** in these pieces: it takes all of them, comes to its end, and can
be closed. -/
def Codes (s : σ) (pieces : List (Octets × Octets)) (rest : Option Octets) : Prop :=
  ∃ t u, Takes s pieces t ∧ Finishes t rest u ∧ (Compressor.close u).1 = .ok ()

theorem takes_concat (h : Takes s pieces t) (hc : Compressor.compress t input = (.ok out, u)) :
    Takes s (pieces ++ [(input, out)]) u := by
  induction h with
  | done => exact .piece hc .done
  | piece hp _ ih => exact .piece hp (ih hc)

end Compressor

/-- **The life of a compressor that coded a body**: no call of it failed. -/
def Life.coding (id : Nat) (pieces : List (Octets × Octets)) (rest : Option Octets) : Life where
  id := id
  pieces := pieces.map fun p => (p.1, .ok p.2)
  finish := rest.map .ok
  close := .ok ()
  unfailed := by
    intro _ p hp
    obtain ⟨q, -, rfl⟩ := List.mem_map.1 hp
    exact ⟨q.2, rfl⟩

/-- The events of a life are calls. -/
theorem Life.calls_events (l : Life) : calls l.events = l.events := by
  refine List.filter_eq_self.2 fun e he => ?_
  simp only [events, feeding, finishing, List.mem_cons, List.mem_append, List.mem_map,
    Option.mem_toList, List.not_mem_nil, or_false] at he
  rcases he with rfl | (⟨p, -, rfl⟩ | ⟨a, -, rfl⟩) | rfl <;> rfl

/-- **The translation of a body**: a chunk of data for each piece that gave some, one for the last
piece together with the rest of the coded form, and the end with the trailer fields. -/
def Message.translation (pieces : List (Octets × Octets)) (last : Octets) (rest : Option Octets)
    (trailers : Option Fields) : List Message :=
  (pieces.flatMap fun p => Message.data p.2) ++
    (Message.data (last ++ rest.getD []) ++ [Message.ending trailers])

section coded

variable {out : Octets} {trailers : Option Fields} {m : Message}

/-- The body that leaves is the coded form. -/
theorem payload_coded : payload (Message.data out ++ [Message.ending trailers]) = out := by
  rw [payload_append]
  by_cases ho : out = []
  · rw [Message.data, if_pos ho, ho]
    rfl
  · rw [Message.data, if_neg ho]
    simp [payload, Message.payload, Message.ending]

end coded

namespace Lease

variable {σ : Type} [Compressor σ] {l : Lease σ} {out : Octets}

theorem finish_of_ok (h : l.finish.answer = .ok out) :
    ∃ rest t, Compressor.Finishes l.compressor rest t ∧ out = rest.getD [] ∧
      l.finish = ⟨.ok out, ⟨l.id, t, l.closed⟩, Life.finishing l.id (rest.map .ok)⟩ := by
  unfold finish at h ⊢
  cases hf : Compressor.isFinished l.compressor with
  | true =>
    simp only [hf, ↓reduceIte] at h ⊢
    obtain rfl : [] = out := Except.ok.inj h
    exact ⟨none, l.compressor, .already hf, rfl, rfl⟩
  | false =>
    simp only [hf, Bool.false_eq_true, ↓reduceIte] at h ⊢
    cases hc : Compressor.finish l.compressor with
    | mk answer t =>
      rw [hc] at h
      obtain rfl : answer = .ok out := ok_of_mapError h
      exact ⟨some out, t, .asked hf hc, rfl, rfl⟩

theorem close_of_ok (hl : l.closed = false) (h : l.close.answer = .ok ()) :
    (Compressor.close l.compressor).1 = .ok () ∧ l.close.events = [.closed l.id (.ok ())] := by
  unfold close at h ⊢
  rw [hl] at h ⊢
  have hc : (Compressor.close l.compressor).1 = .ok () := ok_of_mapError h
  refine ⟨hc, ?_⟩
  rw [← hc]
  rfl

end Lease

namespace Cycle

variable {σ : Type} [Compressor σ] {cy : Cycle σ} {label : Octets} {l : Lease σ}
  {rep : Representation} {fin : Bool} {k : Chunk} {ks more : List Chunk} {ms : List Message}
  {input out : Octets}

/-- **Chunks that are sent one after another.** -/
def sendAll (cy : Cycle σ) : List Chunk → Step (Cycle σ) (List Message)
  | [] => .pure [] cy
  | k :: ks => (cy.send k).andThen fun ms cy => (sendAll cy ks).map (ms ++ ·)

theorem sendAll_append (cy : Cycle σ) (ks more : List Chunk) :
    cy.sendAll (ks ++ more) =
      (cy.sendAll ks).andThen fun ms cy => (cy.sendAll more).map (ms ++ ·) := by
  induction ks generalizing cy with
  | nil =>
    rw [List.nil_append, sendAll, Step.pure_andThen]
    exact (Step.map_id _).symm
  | cons k ks ih =>
    simp only [List.cons_append, sendAll, ih, Step.andThen_assoc, Step.map_andThen,
      Step.andThen_map, Step.map_map, List.append_assoc]

theorem sendAll_singleton (cy : Cycle σ) (k : Chunk) : cy.sendAll [k] = cy.send k := by
  simp only [sendAll, Step.pure, Step.map]
  cases hs : (cy.send k).answer with
  | error f =>
    simp only [Step.andThen, hs]
    rw [← hs]
  | ok ms =>
    rw [Step.andThen_of_ok hs]
    simp only [Except.map, List.append_nil]
    rw [← hs]

theorem sendAll_concat (cy : Cycle σ) (ks : List Chunk) (k : Chunk) :
    cy.sendAll (ks ++ [k]) = (cy.sendAll ks).andThen fun ms cy => (cy.send k).map (ms ++ ·) := by
  rw [sendAll_append]
  simp only [sendAll_singleton]

/-- One more chunk that can be sent behind the others. -/
theorem sendAll_concat_of_ok {front : List Message} (hall : (cy.sendAll ks).answer = .ok front)
    (hs : ((cy.sendAll ks).after.send k).answer = .ok ms) :
    cy.sendAll (ks ++ [k]) = ⟨.ok (front ++ ms), ((cy.sendAll ks).after.send k).after,
      (cy.sendAll ks).events ++ ((cy.sendAll ks).after.send k).events⟩ := by
  rw [sendAll_concat, Step.andThen_of_ok hall, Step.map, hs]
  rfl

/-- Chunks of a body that passes leave as they were written. -/
theorem sendAll_of_skipped (reason : SkipReason) (rep : Representation) (fin : Bool)
    (ks : List Chunk) :
    sendAll (⟨.skipped reason, rep, fin⟩ : Cycle σ) ks =
      ⟨.ok (ks.map .chunk), ⟨.skipped reason, rep, fin || ks.any Chunk.last⟩, []⟩ := by
  induction ks generalizing fin with
  | nil => simp [sendAll, Step.pure]
  | cons k ks ih =>
    have hk : send (⟨.skipped reason, rep, fin⟩ : Cycle σ) k =
        .pure [.chunk k] ⟨.skipped reason, rep, fin || k.last⟩ := rfl
    rw [sendAll, hk, Step.pure_andThen, ih, List.any_cons, Bool.or_assoc]
    rfl

/-- A piece of a coded body gives at most one chunk of data. -/
theorem send_of_encoded (hk : k.last = false)
    (h : (send ⟨.encoded label l, rep, fin⟩ k).answer = .ok ms) :
    ∃ out s, Compressor.compress l.compressor k.payload = (.ok out, s) ∧
      send ⟨.encoded label l, rep, fin⟩ k =
        ⟨.ok (Message.data out), ⟨.encoded label ⟨l.id, s, l.closed⟩, rep, fin⟩,
          [.compressed l.id k.payload (.ok out)]⟩ := by
  simp only [send, isSkip, hk, Bool.false_eq_true, ↓reduceIte, Step.map] at h ⊢
  obtain ⟨out, ho, -⟩ := ok_of_map h
  cases hc : Compressor.compress l.compressor k.payload with
  | mk answer s =>
    simp only [compress, Step.within, Lease.compress, hc] at ho ⊢
    obtain rfl : answer = .ok out := ok_of_mapError ho
    exact ⟨out, s, rfl, rfl⟩

/-- The end of a coded body: its compressor is finished, and then closed. -/
theorem finish_of_encoded (hl : l.closed = false)
    (h : (finish ⟨.encoded label l, rep, fin⟩).answer = .ok out) :
    ∃ rest t, Compressor.Finishes l.compressor rest t ∧ (Compressor.close t).1 = .ok () ∧
      out = rest.getD [] ∧
      (finish ⟨.encoded label l, rep, fin⟩).events =
        Life.finishing l.id (rest.map .ok) ++ [.closed l.id (.ok ())] := by
  simp only [finish] at h ⊢
  cases hf : l.finish.answer with
  | error f =>
    rw [hf] at h
    cases h
  | ok rest =>
    rw [hf] at h
    obtain ⟨_, hclose, rfl⟩ : ∃ u, l.finish.after.close.answer = .ok u ∧ rest = out := ok_of_map h
    obtain ⟨rest', t, hfin, hrest, hstep⟩ := Lease.finish_of_ok hf
    rw [hstep] at hclose ⊢
    obtain ⟨hc, hev⟩ := Lease.close_of_ok (l := ⟨l.id, t, l.closed⟩) hl hclose
    refine ⟨rest', t, hfin, hc, hrest, ?_⟩
    rw [hev]

/-- **The last piece of a coded body.** What it gives and the rest of the coded form are one. -/
theorem compressLast_of_encoded (hl : l.closed = false)
    (h : (compressLast ⟨.encoded label l, rep, fin⟩ input).answer = .ok out) :
    ∃ first s rest t, Compressor.compress l.compressor input = (.ok first, s) ∧
      Compressor.Finishes s rest t ∧ (Compressor.close t).1 = .ok () ∧
      out = first ++ rest.getD [] ∧
      (compressLast ⟨.encoded label l, rep, fin⟩ input).events =
        .compressed l.id input (.ok first) ::
          (Life.finishing l.id (rest.map .ok) ++ [.closed l.id (.ok ())]) := by
  rcases compressLast_cases ⟨.encoded label l, rep, fin⟩ input with
    ⟨f, -, hlast⟩ | ⟨first, hfirst, hlast⟩
  · rw [hlast] at h
    cases h
  · rw [hlast] at h ⊢
    cases hc : Compressor.compress l.compressor input with
    | mk answer s =>
      simp only [compress, Step.within, Lease.compress, hc] at hfirst h ⊢
      obtain rfl : answer = .ok first := ok_of_mapError hfirst
      obtain ⟨out', hfin, rfl⟩ := ok_of_map h
      obtain ⟨rest, t, hends, hclose, rfl, hev⟩ :=
        finish_of_encoded (l := ⟨l.id, s, l.closed⟩) hl hfin
      refine ⟨first, s, rest, t, rfl, hends, hclose, rfl, ?_⟩
      rw [hev]
      rfl

/-- Once the last piece was taken nothing is left to give up. -/
theorem release_compressLast (h : (cy.compressLast input).answer = .ok out) :
    (cy.compressLast input).after.release = [] := by
  rcases compressLast_cases cy input with ⟨f, -, hl⟩ | ⟨first, -, hl⟩
  · rw [hl] at h
    cases h
  · rw [hl]
    exact release_finish

theorem release_send (hs : (cy.send k).answer = .ok ms) (hk : k.last = true) :
    (cy.send k).after.release = [] := by
  cases hp : cy.isSkip with
  | true =>
    obtain ⟨treatment, rep, fin⟩ := cy
    cases treatment with
    | skipped r => rfl
    | encoded label l => cases hp
  | false =>
    simp only [send, hp, hk, Bool.false_eq_true, ↓reduceIte, Step.map] at hs ⊢
    obtain ⟨out, ha, -⟩ := ok_of_map hs
    exact release_compressLast ha

/-- How the body is delivered is nothing to its compressor. -/
theorem answer_compressLast (treatment : Treatment σ) (rep rep' : Representation) (fin : Bool)
    (input : Octets) :
    (compressLast ⟨treatment, rep, fin⟩ input).answer =
      (compressLast ⟨treatment, rep', fin⟩ input).answer := by
  cases treatment with
  | skipped r => rfl
  | encoded label l =>
    simp only [compressLast, compress, Step.within, Step.andThen]
    cases (l.compress input).answer <;> rfl

theorem send_piece_of_coded (hp : cy.isSkip = false) (hk : k.last = false) :
    cy.send k = (cy.compress k.payload).map Message.data := by
  rw [send, hp, hk, if_neg Bool.false_ne_true, if_neg Bool.false_ne_true]

theorem send_last_of_coded (hp : cy.isSkip = false) (hk : k.last = true) :
    cy.send k = (cy.compressLast k.payload).map fun out =>
      Message.data out ++ [Message.ending k.trailers] := by
  rw [send, hp, if_neg Bool.false_ne_true, if_pos hk]

/-- The last chunk of a coded body leaves as what its compressor ends with. -/
theorem answer_send_last (hk : k.last = true) (label : Octets) (l : Lease σ)
    (rep rep' : Representation) (fin : Bool) :
    (send ⟨.encoded label l, rep, fin⟩ k).answer =
      (compressLast ⟨.encoded label l, rep', fin⟩ k.payload).answer.map fun out =>
        Message.data out ++ [Message.ending k.trailers] := by
  rw [send_last_of_coded rfl hk, Step.map, answer_compressLast _ rep' rep]

/-- **Pieces of a coded body** are taken in turn, and leave as the data that they gave. -/
theorem sendAll_pieces (hks : ∀ x ∈ ks, x.last = false)
    (h : (sendAll ⟨.encoded label l, rep, fin⟩ ks).answer = .ok ms) :
    ∃ pieces s, Compressor.Takes l.compressor pieces s ∧
      pieces.map Prod.fst = ks.map Chunk.payload ∧
      sendAll ⟨.encoded label l, rep, fin⟩ ks =
        ⟨.ok (pieces.flatMap fun p => Message.data p.2),
          ⟨.encoded label ⟨l.id, s, l.closed⟩, rep, fin⟩,
          Life.feeding l.id (pieces.map fun p => (p.1, .ok p.2))⟩ := by
  induction ks generalizing l ms with
  | nil => exact ⟨[], l.compressor, .done, rfl, rfl⟩
  | cons k ks ih =>
    rw [sendAll] at h ⊢
    obtain ⟨first, hfirst, hmore⟩ := Step.ok_of_andThen h
    obtain ⟨others, hothers, -⟩ := ok_of_map hmore
    obtain ⟨out, s, hc, hsend⟩ := send_of_encoded (hks k (List.mem_cons_self ..)) hfirst
    rw [Step.andThen_of_ok hfirst, hsend]
    rw [hsend] at hfirst hothers
    obtain rfl := Except.ok.inj hfirst
    obtain ⟨pieces, t, htakes, hfst, hrest⟩ :=
      ih (fun x hx => hks x (List.mem_cons_of_mem _ hx)) hothers
    refine ⟨(k.payload, out) :: pieces, t, .piece hc htakes, ?_, ?_⟩
    · rw [List.map_cons, List.map_cons, hfst]
    · rw [hrest]
      rfl

/-- **A coded body that was sent whole** has left as its translation, and the life of its compressor
is over. -/
theorem sendAll_body (hl : l.closed = false) (hks : ∀ x ∈ ks, x.last = false)
    (hk : k.last = true) (h : (sendAll ⟨.encoded label l, rep, fin⟩ (ks ++ [k])).answer = .ok ms) :
    ∃ pieces out rest, pieces.map Prod.fst = ks.map Chunk.payload ∧
      Compressor.Codes l.compressor (pieces ++ [(k.payload, out)]) rest ∧
      ms = Message.translation pieces out rest k.trailers ∧
      .opened l.id :: (sendAll ⟨.encoded label l, rep, fin⟩ (ks ++ [k])).events =
        (Life.coding l.id (pieces ++ [(k.payload, out)]) rest).events := by
  rw [sendAll_concat] at h ⊢
  obtain ⟨front, hfront, hmore⟩ := Step.ok_of_andThen h
  obtain ⟨pieces, s, htakes, hfst, hall⟩ := sendAll_pieces hks hfront
  rw [Step.andThen_of_ok hfront]
  rw [hall] at hfront hmore ⊢
  obtain rfl := Except.ok.inj hfront
  obtain ⟨last, hlast, rfl⟩ := ok_of_map hmore
  -- the compressor has taken all the pieces before, and is open still
  simp only [send, isSkip, hk, Bool.false_eq_true, ↓reduceIte, Step.map] at hlast ⊢
  obtain ⟨coded, hcoded, rfl⟩ := ok_of_map hlast
  obtain ⟨out, t, rest, u, hc, hfin, hclose, rfl, hev⟩ :=
    compressLast_of_encoded (l := ⟨l.id, s, l.closed⟩) hl hcoded
  refine ⟨pieces, out, rest, hfst, ⟨t, u, Compressor.takes_concat htakes hc, hfin, hclose⟩, rfl, ?_⟩
  rw [hev]
  simp [Life.events, Life.coding, Life.feeding]

end Cycle

namespace Connection

variable {δ σ : Type} [Decision δ σ] [Compressor σ] {c : Connection δ σ} {cy : Cycle σ}
  {ops : List Operation} {ks : List Chunk} {k : Chunk} {label : Octets} {l : Lease σ}

/-- A chunk that was accepted was sent by the open cycle. -/
theorem sent_of_accepted (ha : c.lifecycle = .active) (hc : c.cycle = some cy)
    (hok : ∃ ms, (c.perform (.write (.chunk k))).answer = .ok ms) :
    ∃ ms, (cy.send k).answer = .ok ms := by
  cases hs : (cy.send k).answer with
  | ok ms => exact ⟨ms, rfl⟩
  | error f =>
    obtain ⟨ms, hms⟩ := hok
    rw [perform, Step.map, write_of_unsent ha hc hs] at hms
    cases hms

/-- What the open cycle can send leaves. The cycle goes on, unless that was the end. -/
theorem perform_of_sent {ms : List Message} (ha : c.lifecycle = .active) (hc : c.cycle = some cy)
    (hs : (cy.send k).answer = .ok ms) :
    c.perform (.write (.chunk k)) =
      ⟨.ok [], c.sent (cy.send k).after ms, (cy.send k).events ++
        if (cy.send k).after.finished then (cy.send k).after.release else []⟩ := by
  rw [perform, write_of_sent ha hc hs]
  rfl

/-- **Pieces that are written are sent by the open cycle**, one by one, and leave in order. -/
theorem run_pieces (ha : c.lifecycle = .active) (hc : c.cycle = some cy)
    (hf : cy.finished = false) (hks : ∀ x ∈ ks, x.last = false)
    (hm : messages ops = ks.map .chunk) (hd : .deactivate ∉ ops)
    (hok : ∀ a ∈ (c.run ops).answers, ∃ ms, a = .ok ms) :
    ∃ ms, (cy.sendAll ks).answer = .ok ms ∧
      (c.run ops).last.lifecycle = .active ∧
      (c.run ops).last.cycle = some (cy.sendAll ks).after ∧
      takenOf (c.run ops).answers ++ (c.run ops).last.outbound = c.outbound ++ ms ∧
      (c.run ops).events = (cy.sendAll ks).events := by
  induction ops generalizing c cy ks with
  | nil =>
    obtain rfl : ks = [] := List.map_eq_nil_iff.1 hm.symm
    exact ⟨[], rfl, ha, hc, (List.append_nil _).symm, rfl⟩
  | cons op ops ih =>
    obtain ⟨hop, hrest⟩ := List.ne_and_not_mem_of_not_mem_cons hd
    have hok' : ∀ a ∈ ((c.perform op).after.run ops).answers, ∃ ms, a = .ok ms :=
      fun a hmem => hok a (List.mem_cons_of_mem _ hmem)
    cases haside : op.isAside with
    | true =>
      have hnone : op.message? = none := (Operation.isAside_iff.1 haside).1
      obtain ⟨hl, hcy, ho, he, -⟩ := perform_aside (c := c) haside
      have hm' : messages ops = ks.map .chunk := by
        rw [← hm, messages, messages, List.filterMap_cons_none hnone]
      obtain ⟨ms, hms, hact, hlast, hout, hev⟩ :=
        ih (hl.trans ha) (hcy.trans hc) hf hks hm' hrest hok'
      refine ⟨ms, hms, hact, hlast, ?_, ?_⟩
      · rw [run, takenOf_cons, List.append_assoc, hout, ← List.append_assoc, ho]
      · rw [run, he, hev, List.nil_append]
    | false =>
      cases op with
      | record r | read | drain => cases haside
      | deactivate => exact absurd rfl hop
      | write m =>
        have hcons : m :: messages ops = ks.map .chunk := hm
        cases ks with
        | nil => cases hcons
        | cons k ks =>
          obtain ⟨rfl, hm'⟩ := List.cons.inj hcons
          obtain ⟨first, hfirst⟩ := sent_of_accepted ha hc (hok _ (List.mem_cons_self ..))
          have hfin : (cy.send k).after.finished = false := by
            rw [Cycle.finished_send_piece (hks k (List.mem_cons_self ..)), hf]
          have hp := perform_of_sent ha hc hfirst
          rw [hfin, if_neg Bool.false_ne_true, List.append_nil] at hp
          have hcy : (c.sent (cy.send k).after first).cycle = some (cy.send k).after := by
            simp [sent, hfin]
          rw [hp] at hok'
          obtain ⟨ms, hms, hact, hlast, hout, hev⟩ := ih
            (c := c.sent (cy.send k).after first) ha hcy hfin
            (fun x hx => hks x (List.mem_cons_of_mem _ hx)) hm' hrest hok'
          rw [Cycle.sendAll, Step.andThen_of_ok hfirst, run, hp]
          refine ⟨first ++ ms, ?_, hact, hlast, ?_, ?_⟩
          · rw [Step.map, hms]
            rfl
          · rw [takenOf_cons, List.append_assoc, hout]
            exact List.append_assoc c.outbound first ms
          · rw [hev]
            rfl

section script

open Scripted

/-- A compressor that gives its input back, and one more octet at its end. -/
def echoing : Behaviour := { mode := .echo, tail := [9] }

end script

omit [Compressor σ] in
/-- A stage that codes a whole response codes a streamed one with the same head, and the same
compressor. -/
theorem Codes.streamed {a : Aggregate} (h : c.Codes (.aggregate a) label l) :
    c.Codes (.head a.head) label l := by
  obtain ⟨ha, hc, _, _, r, rest, hm, hb, ht⟩ := h
  obtain ⟨rfl, rfl⟩ := Prod.mk.inj (Option.some.inj hm)
  obtain ⟨hr, -, -, -⟩ := Negotiator.negotiate_of_encoded ht
  have hs : skipReason? a.head r .streamed = none := by
    -- the rules do not ask how a body is delivered, unless it is empty
    refine skipReason?_eq_none_iff.2 fun reason => ?_
    have hrule := skipReason?_eq_none_iff.1 hr reason
    cases reason with
    | emptyBody => rfl
    | _ => exact hrule
  refine ⟨ha, hc, a.head, .streamed, r, rest, rfl, hb, ?_⟩
  rw [negotiated, Negotiator.treatment_negotiate hs hr]
  exact ht

/-- The last chunk of a streamed response that is coded is accepted where its compressor ends the
body, and leaves what that gives. -/
theorem write_last_of_codes {head : Head} (h : c.Codes (.head head) label l)
    (hk : k.last = true) :
    let s := (c.write (.head head)).after.write (.chunk k)
    let coded := (Cycle.compressLast ⟨.encoded label l, .aggregate, false⟩ k.payload).answer
    (∀ out, coded = .ok out → s.answer = .ok () ∧ s.after.outbound = c.outbound ++
        .head { head with fields := Framing.chunked.announce label head.fields } ::
          (Message.data out ++ [Message.ending k.trailers])) ∧
      ∀ f, coded = .error f → s.answer = .error f := by
  intro s coded
  obtain ⟨-, hact, hcy, hout, -⟩ := write_of_codes_head h
  have hsend := Cycle.answer_send_last hk label l .streamed .aggregate false
  refine ⟨fun out ho => ?_, fun f hf => ?_⟩
  · have hms : (Cycle.send ⟨.encoded label l, .streamed, false⟩ k).answer =
        .ok (Message.data out ++ [Message.ending k.trailers]) := by
      rw [hsend, show (Cycle.compressLast _ _).answer = _ from ho]
      rfl
    have hs : s = _ := write_of_sent hact hcy hms
    rw [hs]
    refine ⟨rfl, ?_⟩
    change (c.write (.head head)).after.outbound ++ _ = _
    rw [hout, List.append_assoc]
    rfl
  · have hms : (Cycle.send ⟨.encoded label l, .streamed, false⟩ k).answer = .error f := by
      rw [hsend, show (Cycle.compressLast _ _).answer = _ from hf]
      rfl
    have hs : s = _ := write_of_unsent hact hcy hms
    rw [hs]

/-- **A whole response that is coded** is accepted just where a streamed response with the same
head is that has the body in its last chunk, and its body leaves as that one's does. Its head
declares the length of what leaves, where a length was declared, and chunks where none was. If it
is not accepted nothing of it can ever be taken. -/
theorem whole_as_streamed {a : Aggregate} (h : c.Codes (.aggregate a) label l) :
    let w := c.write (.aggregate a)
    let s := (c.write (.head a.head)).after.write (.chunk ⟨a.payload, true, a.trailers⟩)
    w.answer = s.answer ∧
      (w.answer = .ok () → ∃ whole streamed body,
        w.after.outbound = c.outbound ++ .head whole :: body ∧
        s.after.outbound = c.outbound ++ .head streamed :: body ∧
        (∀ m ∈ body, m.head? = none) ∧
        if a.head.fields.has .contentLength then
          whole.fields.values .contentLength =
            [Octets.ofString (toString (payload body).length)]
        else whole.fields.values .contentLength = [] ∧
          whole.fields.values .transferEncoding = [Octets.ofString "chunked"]) ∧
      (w.answer ≠ .ok () → ∀ ops, takenOf (w.after.run ops).answers = []) := by
  intro w s
  obtain ⟨hok, hfail⟩ := write_of_codes_aggregate h
  obtain ⟨hsok, hsfail⟩ := write_last_of_codes h.streamed (k := ⟨a.payload, true, a.trailers⟩) rfl
  cases ha : (Cycle.compressLast ⟨.encoded label l, .aggregate, false⟩ a.payload).answer with
  | error f =>
    have hs : s.answer = .error f := hsfail f ha
    have hwhole : (Cycle.sendWhole ⟨.encoded label l, .aggregate, false⟩ a).answer = .error f := by
      rw [Cycle.answer_sendWhole, ha]
      rfl
    obtain ⟨hw, hl, ho⟩ := hfail f hwhole
    refine ⟨hw.trans hs.symm, fun hno => ?_, fun _ ops => ?_⟩
    · cases hw.symm.trans hno
    · have hpre := takenOf_run_of_not_active (c := w.after) (by rw [hl]; nofun) ops
      rw [ho, List.prefix_nil, List.append_eq_nil_iff] at hpre
      exact hpre.1
  | ok out =>
    obtain ⟨hs, hsout⟩ := hsok out ha
    have hwhole : (Cycle.sendWhole ⟨.encoded label l, .aggregate, false⟩ a).answer =
        .ok (.head (Cycle.announceWhole ⟨.encoded label l, .aggregate, false⟩ a.head out.length) ::
          (Message.data out ++ [Message.ending a.trailers])) := by
      rw [Cycle.answer_sendWhole, ha]
      rfl
    obtain ⟨hw, ho⟩ := hok _ hwhole
    refine ⟨hw.trans hs.symm, fun _ => ?_, fun hno => absurd hw hno⟩
    refine ⟨_, _, _, ho, hsout, fun m => head?_of_coded, ?_⟩
    rw [payload_coded]
    split
    · rename_i hc
      exact (values_announceWhole_of_has rfl hc _).1
    · rename_i hc
      exact values_announceWhole_of_not_has rfl (Bool.not_eq_true _ ▸ hc) _

section script

open Scripted

/-- A whole response that declared a wrong length is as long as it says once it is coded. -/
theorem whole_as_streamed_of_wrong_length :
    let a := framedBy [⟨.contentLength, Octets.ofString "7"⟩]
    let w := lettered.write (.aggregate a)
    lettered.Codes (.aggregate a) (Octets.ofString "x") ⟨0, { behaviour := {} }, false⟩ ∧
      w.answer = .ok () ∧ ∃ whole body, w.after.outbound = .head whole :: body ∧
        whole.fields.values .contentLength =
          [Octets.ofString (toString (payload body).length)] := by
  intro a w
  have hc := codes_lettered (a := a) (by decide)
  have hok : w.answer = .ok () := by decide
  obtain ⟨-, hsent, -⟩ := whole_as_streamed hc
  obtain ⟨whole, streamed, body, hout, -, -, hlen⟩ := hsent hok
  rw [if_pos (by decide)] at hlen
  exact ⟨hc, hok, whole, body, hout, hlen⟩

end script

end Connection

end ContentCoding
