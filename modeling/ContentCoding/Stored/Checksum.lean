import ContentCoding.Octets

/-!
# Checksums

The check at the end of a gzip stream: the cyclic redundancy check of the content, taken
octet by octet, and the content's size.

* `absorb_append`: a content may be taken in any pieces.
-/

namespace ContentCoding.Stored

/-- **A checksum**: the register of the redundancy check, and the size so far. -/
structure Checksum where
  register : UInt32 := 0xFFFFFFFF
  size : Nat := 0
  deriving DecidableEq, Repr, Inhabited

namespace Checksum

/-- One step of the division by the check's polynomial. -/
def shift (r : UInt32) : UInt32 := if r &&& 1 = 1 then (r >>> 1) ^^^ 0xEDB88320 else r >>> 1

/-- Takes one octet. -/
def step (c : Checksum) (b : UInt8) : Checksum :=
  let r := c.register ^^^ b.toUInt32
  ⟨shift (shift (shift (shift (shift (shift (shift (shift r))))))), c.size + 1⟩

/-- Takes a piece of the content. -/
def absorb (c : Checksum) (bytes : Octets) : Checksum := bytes.foldl step c

/-- The checksum of a content. -/
def of (bytes : Octets) : Checksum := absorb {} bytes

/-- The value of the redundancy check. -/
def value (c : Checksum) : UInt32 := c.register ^^^ 0xFFFFFFFF

theorem absorb_append (c : Checksum) (a b : Octets) :
    (c.absorb a).absorb b = c.absorb (a ++ b) := by
  simp [absorb, List.foldl_append]

/-- The check value of the digits from 1 to 9. -/
example : (of (Octets.ofString "123456789")).value = 0xCBF43926 := by decide +kernel

end Checksum

end ContentCoding.Stored
