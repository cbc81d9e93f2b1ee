import ContentCoding.Stored.Checksum
import ContentCoding.Stored.Word

/-!
# Layouts of stored streams

Every coding has a form in which the content is stored block by block as it is. A layout
says how such a stream looks: what it begins with, how a block is headed, how the last
block is marked, and what follows it.

* `Layout.scan_block`, `Layout.scan_ending`: headers read back, whatever follows.
* `Layout.short_block`, `Layout.short_ending`: part of a header is known to be a part.
-/

namespace ContentCoding.Stored

/-- **What stands at the front of a stream's blocks**: part of a header, no header, or the
header of a block of some size and what follows it. -/
inductive Scan
  | short
  | bad
  | found (size : Nat) (last : Bool) (rest : Octets)
  deriving DecidableEq, Repr

/-- **When the beginning of a stream is written**: with the first input, at the first flush
at the latest, or not before the first block. -/
inductive Opening
  | withInput
  | withFlush
  | withBlock
  deriving DecidableEq, Repr

/-- **Whether an empty piece of input is taken**: always, only as the first piece, or never. -/
inductive EmptyInput
  | taken
  | takenFirst
  | refused
  deriving DecidableEq, Repr

/-- **A layout.** -/
structure Layout where
  preamble : Octets
  opening : Opening
  emptyInput : EmptyInput
  /-- The greatest size of a block. -/
  maxBlock : Nat
  /-- The header of a block that others follow. -/
  block : Nat → Octets
  /-- The header of the last block, which is empty. -/
  ending : Octets
  /-- What follows the last block, for the checksum of the content. -/
  trailer : Checksum → Octets
  scan : Octets → Scan
  scan_block {n : Nat} : 0 < n → n ≤ maxBlock → ∀ rest, scan (block n ++ rest) = .found n false rest
  scan_ending : ∀ rest, scan (ending ++ rest) = .found 0 true rest
  short_block {n : Nat} {p : Octets} :
    0 < n → n ≤ maxBlock → p <+: block n → p ≠ block n → scan p = .short
  short_ending {p : Octets} : p <+: ending → p ≠ ending → scan p = .short

/-- A proper prefix is shorter. -/
theorem length_lt_of_part {p l : Octets} (h : p <+: l) (hn : p ≠ l) : p.length < l.length := by
  rcases Nat.lt_or_ge p.length l.length with hl | hl
  · exact hl
  · exact absurd (h.eq_of_length_le hl) hn

end ContentCoding.Stored
