import ContentCoding.Cycle.Sending
import ContentCoding.Negotiation

/-!
# Connections

The stage of one HTTP/1.x connection that codes its responses. Requests are recorded as
they come in, responses are written as they go out, and what is to be sent is read back.
Each response answers the oldest request that waits. The first fault is the last: it
drops what was not read yet, closes the compressor, and ends the stage.

* `write_of_not_active`: after a fault or the end of the connection nothing is written.
* `deactivate_of_inactive`, `deactivate_of_not_inactive`: the end of the connection is handled once.
* `active_iff_of_write`: a write keeps the stage active just where it succeeds.
-/

namespace ContentCoding

/-- **The life of a connection's stage.** -/
inductive Lifecycle
  | active
  | failed
  | inactive
  deriving DecidableEq, Repr, Inhabited

/-- **A connection's stage**: the requests that wait, the streamed response that is being
written, and the messages that are to be sent, oldest first. -/
structure Connection (δ σ : Type) where
  negotiator : Negotiator δ
  backlog : Backlog := {}
  cycle : Option (Cycle σ) := none
  outbound : List Message := []
  lifecycle : Lifecycle := .active
  deriving DecidableEq

namespace Connection

variable {δ σ : Type} [Decision δ σ] [Compressor σ]

/-- The stage of a new connection. -/
def new (decision : δ) : Connection δ σ := { negotiator := ⟨decision, 0⟩ }

/-- Records a request that has come in. -/
def record (c : Connection δ σ) (r : Request) : Connection δ σ :=
  { c with backlog := c.backlog.record r }

/-- How many requests wait for a response. -/
def pending (c : Connection δ σ) : Nat := c.backlog.size

/-- Negotiates how the response to a request is sent. -/
def negotiate (c : Connection δ σ) (r : Request) (head : Head) (body : BodyKind) :
    Step (Connection δ σ) (Cycle σ) :=
  let n := c.negotiator.negotiate head r body
  { answer := .ok n.cycle, after := { c with negotiator := n.after }, events := n.events }

/-- **A response starts.** It answers the oldest request. An interim response leaves that
request waiting, since its final response follows. -/
def start (c : Connection δ σ) (head : Head) (body : BodyKind) :
    Step (Connection δ σ) (Cycle σ) :=
  if c.cycle.isSome then .fail (.protocol .responseOverlaps) c
  else if head.status.isInterim then
    match c.backlog.peek with
    | .error f => .fail f c
    | .ok r => c.negotiate r head body
  else
    match c.backlog.next with
    | .error f => .fail f c
    | .ok (r, rest) => { c with backlog := rest }.negotiate r head body

/-- The head of a streamed response. -/
def writeHead (c : Connection δ σ) (head : Head) : Step (Connection δ σ) Unit :=
  (c.start head .streamed).andThen fun cycle c =>
    .pure () { c with
      outbound := c.outbound ++ [.head (cycle.announce .chunked head)]
      cycle := some cycle }

/-- **A chunk of a streamed response.** The last one ends its cycle. -/
def writeChunk (c : Connection δ σ) (k : Chunk) : Step (Connection δ σ) Unit :=
  match c.cycle with
  | none => .fail (.protocol .chunkWithoutHead) c
  | some cycle =>
    let sent := cycle.send k
    match sent.answer with
    | .error f => ⟨.error f, { c with cycle := some sent.after }, sent.events⟩
    | .ok ms =>
      -- a cycle that is finished is given up
      { answer := .ok ()
        after := { c with
          outbound := c.outbound ++ ms
          cycle := if sent.after.finished then none else some sent.after }
        events := sent.events ++ if sent.after.finished then sent.after.release else [] }

/-- **A whole response.** Its cycle begins and ends here. -/
def writeAggregate (c : Connection δ σ) (a : Aggregate) : Step (Connection δ σ) Unit :=
  (c.start a.head (.aggregate a.payload.length)).andThen fun cycle c =>
    let sent := cycle.sendWhole a
    -- where the body could not be coded, the compressor is still open
    let events := sent.events ++ sent.after.release
    match sent.answer with
    | .error f => ⟨.error f, c, events⟩
    | .ok ms => ⟨.ok (), { c with outbound := c.outbound ++ ms }, events⟩

/-- What giving up the streamed response does. -/
def releaseCycle (c : Connection δ σ) : List Event :=
  match c.cycle with
  | none => []
  | some cycle => cycle.release

/-- **The stage after a fault**: nothing is sent any more, and no response is open. -/
def abandon (c : Connection δ σ) : Connection δ σ :=
  { c with cycle := none, outbound := [], lifecycle := .failed }

/-- What a message does while the stage is active, fault or not. -/
def dispatch (c : Connection δ σ) : Message → Step (Connection δ σ) Unit
  | .head h => c.writeHead h
  | .chunk k => c.writeChunk k
  | .aggregate a => c.writeAggregate a

/-- **Writes a message.** A fault is final. -/
def write (c : Connection δ σ) (m : Message) : Step (Connection δ σ) Unit :=
  if c.lifecycle = .active then
    let s := c.dispatch m
    match s.answer with
    | .ok () => s
    | .error f => ⟨.error f, s.after.abandon, s.events ++ s.after.releaseCycle⟩
  else .fail .terminated c

/-- Takes the next message that is to be sent. -/
def read (c : Connection δ σ) : Option Message × Connection δ σ :=
  (c.outbound.head?, { c with outbound := c.outbound.tail })

/-- Takes every message that is to be sent. -/
def drain (c : Connection δ σ) : List Message × Connection δ σ :=
  (c.outbound, { c with outbound := [] })

/-- **What the end of a connection does before it is announced.** The compressor of an unfinished
response is closed, and the requests that wait are forgotten. What was to be sent is kept, unless
the close failed. -/
def closeDown (c : Connection δ σ) : Step (Connection δ σ) Unit :=
  let closing : Except Fault Unit × List Event :=
    match c.cycle with
    | none => (.ok (), [])
    | some cycle => (cycle.close.answer, cycle.close.events)
  { answer := closing.1
    after := { c with
      cycle := none
      backlog := {}
      outbound := if closing.1 = .ok () then c.outbound else []
      lifecycle := .inactive }
    events := closing.2 }

/-- **Announces the end** of the connection, with what is left to be sent by then. -/
def announceEnd (c : Connection δ σ) : Step (Connection δ σ) Unit :=
  { answer := .ok (), after := c, events := [.notified c.outbound] }

/-- **The connection ends.** All is closed down first, then the end is announced, once. The
failure of a close is answered behind that. -/
def deactivate (c : Connection δ σ) : Step (Connection δ σ) Unit :=
  if c.lifecycle = .inactive then .pure () c
  else
    let closing := c.closeDown
    let announced := closing.after.announceEnd
    ⟨closing.answer, announced.after, closing.events ++ announced.events⟩

/-- **Destroys the stage.** An open compressor is closed. -/
def release (c : Connection δ σ) : List Event := c.releaseCycle

variable {c : Connection δ σ} {m : Message}

theorem write_of_not_active (h : c.lifecycle ≠ .active) : c.write m = .fail .terminated c := by
  simp [write, h]

omit [Decision δ σ] in
theorem deactivate_of_inactive (h : c.lifecycle = .inactive) : c.deactivate = .pure () c := by
  simp [deactivate, h]

omit [Decision δ σ] in
theorem deactivate_of_not_inactive (h : c.lifecycle ≠ .inactive) :
    c.deactivate = ⟨c.closeDown.answer, c.closeDown.after,
      c.closeDown.events ++ [.notified c.closeDown.after.outbound]⟩ := if_neg h

omit [Decision δ σ] [Compressor σ] in
theorem not_active_abandon : c.abandon.lifecycle ≠ .active := Lifecycle.noConfusion

omit [Compressor σ] in
theorem lifecycle_start (head : Head) (body : BodyKind) :
    (c.start head body).after.lifecycle = c.lifecycle := by
  simp only [start, Step.fail, negotiate]
  split
  · rfl
  · split
    · split <;> rfl
    · split <;> rfl

theorem lifecycle_dispatch : (c.dispatch m).after.lifecycle = c.lifecycle := by
  cases m with
  | head h =>
    simp only [dispatch, writeHead, Step.andThen]
    split <;> simp [Step.pure, lifecycle_start]
  | chunk k =>
    simp only [dispatch, writeChunk, Step.fail]
    split
    · rfl
    · split <;> rfl
  | aggregate a =>
    simp only [dispatch, writeAggregate, Step.andThen]
    split
    · simp [lifecycle_start]
    · split <;> simp [lifecycle_start]

theorem active_iff_of_write (h : c.lifecycle = .active) :
    (c.write m).after.lifecycle = .active ↔ (c.write m).answer = .ok () := by
  simp only [write, h, ↓reduceIte]
  split
  · rename_i he
    simp [he, lifecycle_dispatch, h]
  · simp [abandon]

end Connection

end ContentCoding
