import ContentCoding.Cycle

/-!
# What a cycle sends

The messages that leave for a chunk written, or for a whole response. A body that
passes as it is leaves as it was written. A coded body leaves as chunks of data and
one last chunk, which is empty and carries the trailer fields.

* `mem_data`: no chunk of data is empty, since an empty chunk ends a chunked body.
* `send_of_isSkip`, `sendWhole_of_isSkip`: what passes as it is leaves unchanged.
-/

namespace ContentCoding

namespace Message

/-- **Coded data**: one chunk, or nothing where there is no data. -/
def data (out : Octets) : List Message := if out = [] then [] else [.chunk { payload := out }]

/-- **The end of a coded body**, with its trailer fields. -/
def ending (trailers : Option Fields) : Message :=
  .chunk { payload := [], last := true, trailers := trailers }

theorem mem_data {m : Message} {out : Octets} :
    m ∈ data out ↔ out ≠ [] ∧ m = .chunk { payload := out } := by
  by_cases h : out = [] <;> simp [data, h]

end Message

namespace Cycle

variable {σ : Type} [Compressor σ] {c : Cycle σ} {k : Chunk} {a : Aggregate}

/-- The head of the response: as written, or for a coded body announcing it. -/
def announce (c : Cycle σ) (framing : Framing) (h : Head) : Head :=
  { h with fields := c.fields framing h.fields }

/-- **What leaves for a chunk.** -/
def send (c : Cycle σ) (k : Chunk) : Step (Cycle σ) (List Message) :=
  if c.isSkip then .pure [.chunk k] { c with finished := c.finished || k.last }
  else if k.last then
    (c.compressLast k.payload).map fun out => Message.data out ++ [Message.ending k.trailers]
  else (c.compress k.payload).map Message.data

/-- The head of a coded response whose body is whole, once the body's coded length is known. -/
def announceWhole (c : Cycle σ) (h : Head) (size : Nat) : Head :=
  let framing := Framing.forAggregate h.fields
  let h := c.announce framing h
  if framing = .length then { h with fields := h.fields.setLength size } else h

/-- **What leaves for a whole response.** -/
def sendWhole (c : Cycle σ) (a : Aggregate) : Step (Cycle σ) (List Message) :=
  if c.isSkip then .pure [.aggregate a] { c with finished := true }
  else
    (c.compressLast a.payload).map fun out =>
      .head (c.announceWhole a.head out.length) :: Message.data out ++ [Message.ending a.trailers]

theorem send_of_isSkip (h : c.isSkip = true) :
    c.send k = .pure [.chunk k] { c with finished := c.finished || k.last } := by
  simp [send, h]

theorem sendWhole_of_isSkip (h : c.isSkip = true) :
    c.sendWhole a = .pure [.aggregate a] { c with finished := true } := by
  simp [sendWhole, h]

end Cycle

end ContentCoding
