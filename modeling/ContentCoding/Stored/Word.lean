import ContentCoding.Octets

/-!
# Little-endian numbers

Numbers of a fixed width, their lowest octet first.

* `read_write`: a number that fits its width reads back.
-/

namespace ContentCoding.Stored.Word

/-- A number in so many octets, its lowest one first. -/
def write : Nat → Nat → Octets
  | 0, _ => []
  | width + 1, n => UInt8.ofNat n :: write width (n / 256)

/-- The number that octets write. -/
def read : Octets → Nat
  | [] => 0
  | b :: bs => b.toNat + 256 * read bs

@[simp] theorem length_write (width n : Nat) : (write width n).length = width := by
  induction width generalizing n with
  | zero => rfl
  | succ width ih => simp [write, ih]

theorem read_write {width n : Nat} (h : n < Nat.pow 256 width) : read (write width n) = n := by
  induction width generalizing n with
  | zero =>
    have : n = 0 := by simpa using h
    simp [write, read, this]
  | succ width ih =>
    have hd : n / 256 < Nat.pow 256 width :=
      Nat.div_lt_of_lt_mul (Nat.lt_of_lt_of_eq h (Nat.mul_comm _ _))
    simp only [write, read, UInt8.toNat_ofNat', ih hd]
    omega

end ContentCoding.Stored.Word
