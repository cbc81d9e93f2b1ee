import ContentCoding.Proofs.Writing
import ContentCoding.Scripted
import Mathlib.Data.List.Basic

/-!
# The lives of compressors

The calls that a stage makes are read off the events of a run. Each compressor lives once:
it is opened, given pieces, perhaps finished, and closed. The next one is opened only then.

* `Accounts`: the events so far, together with what the stage holds after them.
* `Accounts.lives`: with no compressor held they amount to whole lives, one after the other.
* `inBalance_run`: every run keeps the account.
* `lives_of_run`: **the calls of a run, up to the end of its stage, are whole lives.** A write
  that completes a response leaves no life open.
-/

namespace ContentCoding

/-- **The life of a compressor**, by its calls: the pieces that it was given, the finish that it
was asked for, if it was, and the close. One that failed on a piece is not asked to finish. -/
structure Life where
  id : Nat
  pieces : List (Octets × Except Cause Octets)
  finish : Option (Except Cause Octets)
  close : Except Cause Unit
  unfailed : finish ≠ none → ∀ p ∈ pieces, ∃ out, p.2 = .ok out

namespace Life

/-- The calls with the pieces of a body. -/
def feeding (id : Nat) (pieces : List (Octets × Except Cause Octets)) : List Event :=
  pieces.map fun p => .compressed id p.1 p.2

/-- The call to finish, if there is one. -/
def finishing (id : Nat) (finish : Option (Except Cause Octets)) : List Event :=
  finish.toList.map (.finished id)

/-- **The events of a life**, from the opening to the close. -/
def events (l : Life) : List Event :=
  .opened l.id :: (feeding l.id l.pieces ++ finishing l.id l.finish ++ [.closed l.id l.close])

theorem feeding_concat (id : Nat) (pieces : List (Octets × Except Cause Octets))
    (p : Octets × Except Cause Octets) :
    feeding id (pieces ++ [p]) = feeding id pieces ++ [.compressed id p.1 p.2] := by
  simp [feeding]

end Life

/-- The events that concern a compressor. -/
def calls (es : List Event) : List Event := es.filter fun e => e.compressor?.isSome

theorem calls_append (es fs : List Event) : calls (es ++ fs) = calls es ++ calls fs := by
  unfold calls
  exact List.filter_append es fs

namespace Cycle

variable {σ : Type} [Compressor σ]

/-- All that a cycle does for a piece is to call its compressor. -/
theorem calls_compress (cy : Cycle σ) (input : Octets) :
    calls (cy.compress input).events = (cy.compress input).events := by
  unfold compress
  split <;> rfl

theorem calls_close (cy : Cycle σ) : calls cy.close.events = cy.close.events := by
  unfold close
  split
  · rfl
  · rw [Step.within, Lease.close]
    split <;> rfl

theorem calls_finish (cy : Cycle σ) : calls cy.finish.events = cy.finish.events := by
  unfold finish
  split
  · rfl
  · rename_i l _
    have hf : calls l.finish.events = l.finish.events := by
      unfold Lease.finish
      split <;> rfl
    have hc : calls l.finish.after.close.events = l.finish.after.close.events := by
      unfold Lease.close
      split <;> rfl
    rw [calls_append, hf, hc]

theorem calls_compressLast (cy : Cycle σ) (input : Octets) :
    calls (cy.compressLast input).events = (cy.compressLast input).events := by
  rcases compressLast_cases cy input with ⟨f, -, hl⟩ | ⟨out, -, hl⟩
  · rw [hl]
    exact calls_compress cy input
  · rw [hl]
    simp only [calls_append, calls_compress, calls_finish]

/-- All that a cycle does for a chunk is to call its compressor. -/
theorem calls_send (cy : Cycle σ) (k : Chunk) :
    calls (cy.send k).events = (cy.send k).events := by
  unfold send
  split
  · rfl
  · split
    · exact calls_compressLast cy k.payload
    · exact calls_compress cy k.payload

theorem calls_sendWhole (cy : Cycle σ) (a : Aggregate) :
    calls (cy.sendWhole a).events = (cy.sendWhole a).events := by
  unfold sendWhole
  split
  · rfl
  · exact calls_compressLast cy a.payload

end Cycle

/-- **What a stage holds**: no compressor, one that takes pieces, or one that can only be closed. -/
inductive Custody
  | idle
  | working (id : Nat)
  | spent (id : Nat)
  deriving DecidableEq

/-- **An account**: how many compressors were opened, what is held, and the events so far. -/
inductive Accounts : Nat → Custody → List Event → Prop
  | new : Accounts 0 .idle []
  | aside {n : Nat} {p : Custody} {es : List Event} {e : Event} :
      Accounts n p es → e.compressor? = none → Accounts n p (es ++ [e])
  | opened {n : Nat} {es : List Event} :
      Accounts n .idle es → Accounts (n + 1) (.working n) (es ++ [.opened n])
  | compressed {n id : Nat} {es : List Event} {input out : Octets} :
      Accounts n (.working id) es →
      Accounts n (.working id) (es ++ [.compressed id input (.ok out)])
  | failed {n id : Nat} {es : List Event} {input : Octets} {cause : Cause} :
      Accounts n (.working id) es →
      Accounts n (.spent id) (es ++ [.compressed id input (.error cause)])
  | finished {n id : Nat} {es : List Event} {answer : Except Cause Octets} :
      Accounts n (.working id) es → Accounts n (.spent id) (es ++ [.finished id answer])
  | closed {n id : Nat} {p : Custody} {es : List Event} {answer : Except Cause Unit} :
      Accounts n p es → p = .working id ∨ p = .spent id →
      Accounts n .idle (es ++ [.closed id answer])

/-- **The life that is open** behind so many whole ones: what is held, how many compressors were
opened, and its calls so far. -/
inductive Begun (lives : Nat) : Custody → Nat → List Event → Prop
  | idle : Begun lives .idle lives []
  | working (pieces : List (Octets × Except Cause Octets)) :
      (∀ p ∈ pieces, ∃ out, p.2 = .ok out) →
      Begun lives (.working lives) (lives + 1) (.opened lives :: Life.feeding lives pieces)
  | spent (pieces : List (Octets × Except Cause Octets)) (finish : Option (Except Cause Octets)) :
      (finish ≠ none → ∀ p ∈ pieces, ∃ out, p.2 = .ok out) →
      Begun lives (.spent lives) (lives + 1)
        (.opened lives :: (Life.feeding lives pieces ++ Life.finishing lives finish))

namespace Accounts

variable {n : Nat} {p : Custody} {es : List Event}

/-- A life that is open and closed now is whole. -/
theorem closed_begun {lives id n : Nat} {p : Custody} {fs : List Event}
    (h : Begun lives p n fs) (hp : p = .working id ∨ p = .spent id) (answer : Except Cause Unit) :
    n = lives + 1 ∧ ∃ l : Life, l.id = lives ∧ fs ++ [.closed id answer] = l.events := by
  cases h with
  | idle => simp at hp
  | working pieces hu =>
    obtain rfl : lives = id := by simpa using hp
    refine ⟨rfl, ⟨lives, pieces, none, answer, fun _ => hu⟩, rfl, ?_⟩
    simp [Life.events, Life.finishing]
  | spent pieces finish hu =>
    obtain rfl : lives = id := by simpa using hp
    refine ⟨rfl, ⟨lives, pieces, finish, answer, hu⟩, rfl, ?_⟩
    simp [Life.events]

/-- **The calls of an account are whole lives**, and behind them the one that is open. -/
theorem begun (h : Accounts n p es) :
    ∃ (lives : List Life) (fs : List Event), lives.map Life.id = List.range lives.length ∧
      Begun lives.length p n fs ∧ calls es = lives.flatMap Life.events ++ fs := by
  induction h with
  | new => exact ⟨[], [], rfl, .idle, rfl⟩
  | @aside n p es e _ he ih =>
    obtain ⟨lives, fs, hids, hb, hcalls⟩ := ih
    refine ⟨lives, fs, hids, hb, ?_⟩
    have hn : calls [e] = [] := by simp [calls, he]
    rw [calls_append, hn, List.append_nil, hcalls]
  | opened _ ih =>
    obtain ⟨lives, fs, hids, hb, hcalls⟩ := ih
    cases hb
    refine ⟨lives, [.opened lives.length], hids, .working [] nofun, ?_⟩
    rw [calls_append, hcalls, List.append_nil]
    rfl
  | @compressed n id es input out _ ih =>
    obtain ⟨lives, fs, hids, hb, hcalls⟩ := ih
    cases hb with
    | working pieces hu =>
      have hu' : ∀ p ∈ pieces ++ [(input, .ok out)], ∃ out, p.2 = .ok out := by
        intro p hp
        rcases List.mem_append.1 hp with hp | hp
        · exact hu p hp
        · exact ⟨out, by rw [List.mem_singleton.1 hp]⟩
      refine ⟨lives, _, hids, .working _ hu', ?_⟩
      rw [calls_append, hcalls, Life.feeding_concat, List.append_assoc]
      rfl
  | @failed n id es input cause _ ih =>
    obtain ⟨lives, fs, hids, hb, hcalls⟩ := ih
    cases hb with
    | working pieces hu =>
      -- the piece that failed is the last one, and no finish follows it
      refine ⟨lives, _, hids, .spent (pieces ++ [(input, .error cause)]) none (by simp), ?_⟩
      rw [calls_append, hcalls, Life.feeding_concat, List.append_assoc]
      simp [calls, Event.compressor?, Life.finishing]
  | @finished n id es answer _ ih =>
    obtain ⟨lives, fs, hids, hb, hcalls⟩ := ih
    cases hb with
    | working pieces hu =>
      refine ⟨lives, _, hids, .spent pieces (some answer) (fun _ => hu), ?_⟩
      rw [calls_append, hcalls, List.append_assoc]
      rfl
  | @closed n id p es answer _ hp ih =>
    obtain ⟨lives, fs, hids, hb, hcalls⟩ := ih
    obtain ⟨rfl, l, hid, hl⟩ := closed_begun hb hp answer
    refine ⟨lives ++ [l], [], ?_, ?_, ?_⟩
    · rw [List.map_append, hids, List.length_append, List.length_singleton, List.range_succ,
        List.map_singleton, hid]
    · have hlen : (lives ++ [l]).length = lives.length + 1 := by simp
      exact hlen ▸ .idle
    · rw [calls_append, hcalls, List.flatMap_append, List.flatMap_singleton, List.append_nil,
        List.append_assoc, ← hl]
      rfl

/-- **With nothing held the calls are whole lives.** -/
theorem lives (h : Accounts n .idle es) :
    ∃ lives : List Life, lives.map Life.id = List.range lives.length ∧
      calls es = lives.flatMap Life.events := by
  obtain ⟨lives, fs, hids, hb, hcalls⟩ := h.begun
  cases hb
  exact ⟨lives, hids, by rw [hcalls, List.append_nil]⟩

end Accounts

/-- Whether a message is the end of a response: a last chunk, or a whole response. -/
def Message.completes : Message → Bool
  | .head _ => false
  | .chunk k => k.last
  | .aggregate _ => true

/-- What a cycle in good order holds. -/
def Cycle.custody {σ : Type} (cy : Cycle σ) : Custody :=
  match cy.treatment with
  | .skipped _ => .idle
  | .encoded _ l => if l.closed then .idle else .working l.id

/-- **What a cycle may hold**: its compressor takes pieces, or can only be closed. -/
def Cycle.Holds {σ : Type} (cy : Cycle σ) (p : Custody) : Prop :=
  p = cy.custody ∨ ∃ id, cy.custody = .working id ∧ p = .spent id

namespace Cycle

variable {σ : Type} [Compressor σ] {cy : Cycle σ} {n : Nat} {p : Custody} {es : List Event}
  {input : Octets}

omit [Compressor σ] in
theorem holds_custody (cy : Cycle σ) : cy.Holds cy.custody := .inl rfl

/-- A cycle that is given up holds nothing. -/
theorem accounts_release (h : Accounts n p es) (hp : cy.Holds p) :
    Accounts n .idle (es ++ cy.release) := by
  obtain ⟨treatment, rep, fin⟩ := cy
  cases treatment with
  | skipped r =>
    obtain rfl : p = .idle := by simpa [Holds, custody] using hp
    rw [release, close, Step.pure, List.append_nil]
    exact h
  | encoded label l =>
    cases hl : l.closed with
    | true =>
      obtain rfl : p = .idle := by simpa [Holds, custody, hl] using hp
      have hr : release ⟨.encoded label l, rep, fin⟩ = ([] : List Event) := release_of_closed hl
      rw [hr, List.append_nil]
      exact h
    | false =>
      have hw : p = .working l.id ∨ p = .spent l.id := by simpa [Holds, custody, hl] using hp
      have hr : release ⟨.encoded label l, rep, fin⟩ =
          [.closed l.id (Compressor.close l.compressor).1] := by
        simp [release, close, Step.within, Lease.close, hl]
      rw [hr]
      exact h.closed hw

/-- A piece that fails spends the compressor; any other leaves it at work. -/
theorem accounts_compress (h : Accounts n cy.custody es) (hc : cy.isClosed = false)
    (input : Octets) :
    ∃ p, Accounts n p (es ++ (cy.compress input).events) ∧ (cy.compress input).after.Holds p ∧
      (cy.compress input).after.isClosed = false ∧
      ∀ out, (cy.compress input).answer = .ok out → p = (cy.compress input).after.custody := by
  obtain ⟨treatment, rep, fin⟩ := cy
  cases treatment with
  | skipped r =>
    refine ⟨.idle, ?_, .inl rfl, rfl, fun _ _ => rfl⟩
    rw [compress, Step.pure, List.append_nil]
    exact h
  | encoded label l =>
    have hl : l.closed = false := hc
    have hw : Accounts n (.working l.id) es := by simpa [custody, hl] using h
    cases ha : (Compressor.compress l.compressor input).1 with
    | ok out =>
      refine ⟨.working l.id, ?_, .inl ?_, hc, fun _ _ => ?_⟩
      · simpa [compress, Step.within, Lease.compress, ha] using hw.compressed
      · simp [compress, Step.within, Lease.compress, custody, hl]
      · simp [compress, Step.within, Lease.compress, custody, hl]
    | error cause =>
      -- the cycle does not know that its compressor failed, the account does
      refine ⟨.spent l.id, ?_, .inr ⟨l.id, ?_, rfl⟩, hc, fun out hout => ?_⟩
      · simpa [compress, Step.within, Lease.compress, ha] using hw.failed
      · simp [compress, Step.within, Lease.compress, custody, hl]
      · simp [compress, Step.within, Lease.compress, ha, Except.mapError] at hout

/-- The end of a body closes its compressor, whatever fails. -/
theorem accounts_finish (h : Accounts n cy.custody es) (hc : cy.isClosed = false) :
    Accounts n .idle (es ++ cy.finish.events) ∧ cy.finish.after.custody = .idle := by
  obtain ⟨treatment, rep, fin⟩ := cy
  cases treatment with
  | skipped r =>
    refine ⟨?_, rfl⟩
    rw [finish, Step.pure, List.append_nil]
    exact h
  | encoded label l =>
    have hl : l.closed = false := hc
    have hw : Accounts n (.working l.id) es := by simpa [custody, hl] using h
    -- a compressor that says it is finished is not asked, and is closed all the same
    have hlf : l.finish.after.closed = false ∧ l.finish.after.id = l.id ∧
        ∃ p, Accounts n p (es ++ l.finish.events) ∧ (p = .working l.id ∨ p = .spent l.id) := by
      unfold Lease.finish
      split
      · exact ⟨hl, rfl, .working l.id, by simpa [Step.pure] using hw, .inl rfl⟩
      · exact ⟨hl, rfl, .spent l.id, hw.finished, .inr rfl⟩
    obtain ⟨hopen, hid, p, hacc, hp⟩ := hlf
    refine ⟨?_, by simp [finish, custody, Lease.closed_close]⟩
    have hev : (finish ⟨.encoded label l, rep, fin⟩).events =
        l.finish.events ++ [.closed l.id (Compressor.close l.finish.after.compressor).1] := by
      simp [finish, Lease.close, hopen, hid]
    rw [hev, ← List.append_assoc]
    exact hacc.closed hp

/-- The last piece spends the compressor where it fails, and else closes it. -/
theorem accounts_compressLast (h : Accounts n cy.custody es) (hc : cy.isClosed = false)
    (input : Octets) :
    ∃ p, Accounts n p (es ++ (cy.compressLast input).events) ∧
      (cy.compressLast input).after.Holds p := by
  obtain ⟨p, hacc, hp, hopen, hok⟩ := accounts_compress h hc input
  rcases compressLast_cases cy input with ⟨f, -, hl⟩ | ⟨out, ha, hl⟩
  · rw [hl]
    exact ⟨p, hacc, hp⟩
  · obtain rfl := hok out ha
    obtain ⟨hfin, hidle⟩ := accounts_finish hacc hopen
    rw [hl, ← List.append_assoc]
    exact ⟨.idle, hfin, .inl hidle.symm⟩

/-- What a chunk does to the account. A cycle that goes on has its compressor at work. -/
theorem accounts_send (h : Accounts n cy.custody es) (hc : cy.isClosed = false) (k : Chunk) :
    ∃ p, Accounts n p (es ++ (cy.send k).events) ∧ (cy.send k).after.Holds p ∧
      ∀ ms, (cy.send k).answer = .ok ms → (cy.send k).after.finished = false →
        p = (cy.send k).after.custody := by
  unfold send
  split
  · refine ⟨cy.custody, by simpa [Step.pure] using h, .inl rfl, fun _ _ _ => rfl⟩
  · split
    · obtain ⟨p, hacc, hp⟩ := accounts_compressLast h hc k.payload
      refine ⟨p, hacc, hp, fun ms hms hf => ?_⟩
      obtain ⟨out, ha, -⟩ := ok_of_map hms
      rw [Step.map, finished_compressLast ha] at hf
      cases hf
    · obtain ⟨p, hacc, hp, -, hok⟩ := accounts_compress h hc k.payload
      refine ⟨p, hacc, hp, fun ms hms _ => ?_⟩
      obtain ⟨out, ha, -⟩ := ok_of_map hms
      exact hok out ha

theorem accounts_sendWhole (h : Accounts n cy.custody es) (hc : cy.isClosed = false)
    (a : Aggregate) :
    ∃ p, Accounts n p (es ++ (cy.sendWhole a).events) ∧ (cy.sendWhole a).after.Holds p := by
  unfold sendWhole
  split
  · exact ⟨cy.custody, by simpa [Step.pure] using h, .inl rfl⟩
  · exact accounts_compressLast h hc a.payload

end Cycle

/-- A negotiation opens the compressor of the cycle that it comes to. -/
theorem Negotiator.accounts_negotiate {δ σ : Type} [Decision δ σ] {nn : Negotiator δ}
    {es : List Event} (h : Accounts nn.opened .idle es) (head : Head) (r : Request)
    (body : BodyKind) :
    let n := nn.negotiate head r body
    Accounts n.after.opened n.cycle.custody (es ++ n.events) := by
  simp only [negotiate]
  split
  · simpa [Cycle.custody] using h
  · have hc : Accounts nn.opened .idle (es ++ [.consulted head r.accept]) := h.aside rfl
    split
    · exact hc
    · have ho := hc.opened
      rw [List.append_assoc] at ho
      exact ho

namespace Connection

variable {δ σ : Type} [Decision δ σ] [Compressor σ] {c : Connection δ σ} {es : List Event}

/-- What a stage holds. -/
def custody (c : Connection δ σ) : Custody :=
  match c.cycle with
  | none => .idle
  | some cy => cy.custody

/-- The account of a stage, after these events. -/
def InBalance (c : Connection δ σ) (es : List Event) : Prop :=
  Accounts c.negotiator.opened c.custody es

omit [Decision δ σ] [Compressor σ] in
theorem inBalance_of_none (hc : c.cycle = none) :
    c.InBalance es ↔ Accounts c.negotiator.opened .idle es := by
  simp [InBalance, custody, hc]

omit [Decision δ σ] [Compressor σ] in
theorem inBalance_of_some {cy : Cycle σ} (hc : c.cycle = some cy) :
    c.InBalance es ↔ Accounts c.negotiator.opened cy.custody es := by
  simp [InBalance, custody, hc]

omit [Decision δ σ] in
/-- Giving up the open response leaves nothing held. -/
theorem accounts_release (h : c.InBalance es) :
    Accounts c.negotiator.opened .idle (es ++ c.release) := by
  unfold release releaseCycle
  cases hc : c.cycle with
  | none =>
    rw [List.append_nil]
    exact (inBalance_of_none hc).1 h
  | some cy => exact Cycle.accounts_release ((inBalance_of_some hc).1 h) cy.holds_custody

/-- A whole response leaves nothing held, sent or not. -/
theorem accounts_whole (h : c.InBalance es) (hc : c.cycle = none) (a : Aggregate) (r : Request) :
    let n := c.negotiated r a.head (.aggregate a.payload.length)
    Accounts n.after.opened .idle
      (es ++ (n.events ++ ((n.cycle.sendWhole a).events ++
        (n.cycle.sendWhole a).after.release))) := by
  intro n
  have hn : Accounts n.after.opened n.cycle.custody (es ++ n.events) :=
    Negotiator.accounts_negotiate ((inBalance_of_none hc).1 h) a.head r _
  obtain ⟨p, hacc, hp⟩ := Cycle.accounts_sendWhole hn Negotiator.not_isClosed_negotiate a
  have hr := Cycle.accounts_release hacc hp
  simpa only [List.append_assoc] using hr

/-- **A write keeps the account.** -/
theorem inBalance_write (ho : c.InOrder) (h : c.InBalance es) (m : Message) :
    (c.write m).after.InBalance (es ++ (c.write m).events) := by
  have hw := c.wrote m
  generalize c.write m = s at hw
  cases hw with
  | terminated => rwa [Step.fail, List.append_nil]
  | overlaps _ _ hc =>
    have hr := accounts_release h
    rw [release, releaseCycle, hc] at hr
    exact (inBalance_of_none rfl).2 hr
  | unmatched _ _ hc | headless _ hc =>
    rw [inBalance_of_none rfl, List.append_nil]
    exact (inBalance_of_none hc).1 h
  | @head hd r rest n _ hc _ hn =>
    subst hn
    exact (inBalance_of_some rfl).2
      (Negotiator.accounts_negotiate ((inBalance_of_none hc).1 h) hd r .streamed)
  | @chunk k cy ms _ hc hs =>
    obtain ⟨p, hacc, hp, hgo⟩ :=
      Cycle.accounts_send ((inBalance_of_some hc).1 h) (ho.unclosed cy hc) k
    rw [← List.append_assoc]
    cases hf : (cy.send k).after.finished with
    | true =>
      -- the cycle is dropped, which closes what its end did not close
      rw [inBalance_of_none (by simp [sent, hf])]
      exact Cycle.accounts_release hacc hp
    | false =>
      obtain rfl := hgo ms hs hf
      have hgoes : (c.sent (cy.send k).after ms).cycle = some (cy.send k).after := by
        simp [sent, hf]
      simp only [inBalance_of_some hgoes, Bool.false_eq_true, ↓reduceIte, List.append_nil]
      exact hacc
  | @chunkFailed k cy f _ hc hs =>
    obtain ⟨p, hacc, hp, -⟩ :=
      Cycle.accounts_send ((inBalance_of_some hc).1 h) (ho.unclosed cy hc) k
    rw [inBalance_of_none rfl, ← List.append_assoc]
    exact Cycle.accounts_release hacc hp
  | @aggregate a r rest n ms _ hc _ hn =>
    subst hn
    refine (inBalance_of_none ?_).2 (accounts_whole h hc a r)
    exact hc
  | @aggregateFailed a r rest n f _ hc _ hn =>
    subst hn
    exact (inBalance_of_none rfl).2 (accounts_whole h hc a r)

omit [Decision δ σ] in
/-- The end of the connection keeps the account. It closes what is held, failed or not. -/
theorem inBalance_deactivate (h : c.InBalance es) :
    c.deactivate.after.InBalance (es ++ c.deactivate.events) := by
  by_cases hl : c.lifecycle = .inactive
  · rwa [deactivate_of_inactive hl, Step.pure, List.append_nil]
  · have hr := (accounts_release h).aside (e := .notified c.closeDown.after.outbound) rfl
    unfold release releaseCycle at hr
    rw [deactivate_of_not_inactive hl]
    unfold closeDown at hr ⊢
    cases hc : c.cycle with
    | none =>
      rw [hc, List.append_nil] at hr
      exact (inBalance_of_none rfl).2 hr
    | some cy =>
      rw [hc, List.append_assoc] at hr
      exact (inBalance_of_none rfl).2 hr

/-- Every operation keeps the account. -/
theorem inBalance_perform (ho : c.InOrder) (h : c.InBalance es) (op : Operation) :
    (c.perform op).after.InBalance (es ++ (c.perform op).events) := by
  cases op with
  | record r | read | drain => rwa [perform, Step.pure, List.append_nil]
  | write m => exact inBalance_write ho h m
  | deactivate => exact inBalance_deactivate h

/-- **A run keeps the account**, whatever is done in it. -/
theorem inBalance_run (ho : c.InOrder) (h : c.InBalance es) (ops : List Operation) :
    (c.run ops).last.InBalance (es ++ (c.run ops).events) := by
  induction ops generalizing c es with
  | nil => rwa [run, List.append_nil]
  | cons op ops ih =>
    have ho' : (c.perform op).after.InOrder := inOrder_perform ho op
    have hb : (c.perform op).after.InBalance (es ++ (c.perform op).events) :=
      inBalance_perform ho h op
    have hrest := ih ho' hb
    rwa [List.append_assoc] at hrest

omit [Decision δ σ] [Compressor σ] in
theorem inBalance_new (d : δ) : (new d : Connection δ σ).InBalance [] :=
  (inBalance_of_none rfl).2 .new

/-- After a write that completes its response no response is open, whatever it answered. -/
theorem cycle_of_completes (ho : c.InOrder) {m : Message} (hm : m.completes) :
    (c.write m).after.cycle = none := by
  have hw := c.wrote m
  generalize c.write m = s at hw
  cases hw with
  | terminated ha =>
    by_contra hc
    exact ha (ho.active hc)
  | overlaps | unmatched | headless | chunkFailed | aggregateFailed => rfl
  | head => cases hm
  | @chunk k cy ms _ hc hs =>
    have hf : (cy.send k).after.finished = true := Cycle.finished_send hs hm
    simp [sent, hf]
  | aggregate _ hc => exact hc

/-- **The calls of a run are whole lives.** A stage opens its compressors one after another,
each only once the one before it was closed; every one is opened, given pieces, finished at most
once and only where no piece failed, and closed once. Destroying the stage ends the last life,
and a write that completes its response leaves none open. -/
theorem lives_of_run (d : δ) (ops : List Operation) :
    let h := (new d : Connection δ σ).run ops
    (∃ lives : List Life, lives.map Life.id = List.range lives.length ∧
        calls (h.events ++ h.last.release) = lives.flatMap Life.events) ∧
      ∀ m : Message, m.completes → ∃ lives : List Life,
        lives.map Life.id = List.range lives.length ∧
        calls (h.events ++ (h.last.write m).events) = lives.flatMap Life.events := by
  intro h
  have ho : h.last.InOrder := inOrder_run (inOrder_new d) ops
  have hb : h.last.InBalance h.events := inBalance_run (inOrder_new d) (inBalance_new d) ops
  refine ⟨(accounts_release hb).lives, fun m hm => ?_⟩
  have hw := inBalance_write ho hb m
  rw [inBalance_of_none (cycle_of_completes ho hm)] at hw
  exact hw.lives

section script

open Scripted

/-- A decision that codes everything, with compressors that fail on their second piece. -/
def faltering : Script := ⟨[some ⟨Octets.ofString "x", { failsAt := some 1 }⟩], 0⟩

/-- A streamed response up to its last chunk. -/
def faltered : List Operation :=
  [.record ⟨.get, none⟩, .write (.head {}), .write (.chunk { payload := [1] })]

/-- The last chunk fails, and the write of it has closed the compressor. -/
theorem lives_of_faltering_run :
    (Message.chunk { payload := [2], last := true }).completes = true ∧
      ∃ lives : List Life, lives.map Life.id = List.range lives.length ∧
        lives.flatMap Life.events =
          [.opened 0, .compressed 0 [1] (.ok (Octets.ofString "1")),
            .compressed 0 [2] (.error Machine.compressFailed), .closed 0 (.ok ())] := by
  have hm : (Message.chunk { payload := [2], last := true }).completes = true := rfl
  obtain ⟨lives, hids, hcalls⟩ := (lives_of_run faltering faltered).2 _ hm
  exact ⟨hm, lives, hids, by rw [← hcalls]; decide⟩

end script

end Connection

end ContentCoding
