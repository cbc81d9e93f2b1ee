import ContentCoding.Stored.Formats

/-!
# Reading stored streams

What can be read off the front part of a stream: the content that is there so far, and
whether the stream has ended. Part of a block is readable before the block is complete.
-/

namespace ContentCoding.Stored

/-- **Where reading has come to**: more may follow, the stream has ended, or it is no stream. -/
inductive Progress
  | unfinished
  | ended
  | corrupt
  deriving DecidableEq, Repr, Inhabited

/-- **What was read**: the content so far. -/
structure Reading where
  content : Octets
  progress : Progress
  deriving DecidableEq, Repr, Inhabited

namespace Layout

variable (l : Layout)

/-- What follows the last block. -/
def readTrailer (content bytes : Octets) : Reading :=
  let expected := l.trailer (.of content)
  if bytes = expected then ⟨content, .ended⟩
  else if bytes.isPrefixOf expected then ⟨content, .unfinished⟩
  else ⟨content, .corrupt⟩

/-- The blocks, behind the content that was read before them. -/
def readBlocks (content bytes : Octets) : Reading :=
  match l.scan bytes with
  | .short => ⟨content, .unfinished⟩
  | .bad => ⟨content, .corrupt⟩
  | .found size last rest =>
    let content := content ++ rest.take size
    if rest.length < size then ⟨content, .unfinished⟩
    else if last then l.readTrailer content (rest.drop size)
    else if _h : rest.length < bytes.length then readBlocks content (rest.drop size)
    else ⟨content, .corrupt⟩
termination_by bytes.length
decreasing_by
  rw [List.length_drop]
  omega

/-- **Reads the front part of a stream.** -/
def read (bytes : Octets) : Reading :=
  if l.preamble.isPrefixOf bytes then l.readBlocks [] (bytes.drop l.preamble.length)
  else if bytes.isPrefixOf l.preamble then ⟨[], .unfinished⟩
  else ⟨[], .corrupt⟩

end Layout

end ContentCoding.Stored
