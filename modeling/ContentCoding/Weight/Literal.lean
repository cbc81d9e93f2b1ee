import ContentCoding.Weight

/-!
# Weights as written

A weight is written as a decimal, or as one of the words `inf`, `infinity` and
`nan`; either may carry a sign. A decimal has digits before a point, after it or
both, and may have an exponent. Letter case does not count.
-/

namespace ContentCoding.Weight

/-- A sign, if one stands there, and what follows it. -/
def sign : Text → Bool × Text
  | '-' :: s => (true, s)
  | '+' :: s => (false, s)
  | s => (false, s)

/-- The digits at the front, and what follows them. -/
def digits (s : Text) : Text × Text := (s.takeWhile Char.isDigit, s.dropWhile Char.isDigit)

/-- The number that digits write in base ten. -/
def value (ds : Text) : Nat := ds.foldl (fun n c => 10 * n + (c.toNat - '0'.toNat)) 0

/-- The digits after a point, if one stands there, and what follows them. -/
def fraction : Text → Text × Text
  | '.' :: s => digits s
  | s => ([], s)

/-- The exponent that a text states; none is zero. -/
def exponent? : Text → Option Int
  | [] => some 0
  | c :: s =>
    let (negative, ds) := sign s
    if c.toLower = 'e' ∧ ds ≠ [] ∧ ds.all Char.isDigit then
      some (if negative then -(value ds : Int) else value ds)
    else none

/-- **An unsigned decimal**: its units. -/
def decimal? (s : Text) : Option Nat :=
  let (whole, s) := digits s
  let (part, s) := fraction s
  if whole = [] ∧ part = [] then none
  else (exponent? s).map fun e => ofDecimal (value (whole ++ part)) (e - part.length)

/-- **A weight as written**, or none where the text writes no number. -/
def parse? (s : Text) : Option Weight :=
  let (negative, s) := sign s
  match decimal? s with
  | some n => some (signed negative n)
  | none =>
    let word := String.ofList (Text.fold s)
    if word = "nan" then some .nan
    else if word = "inf" ∨ word = "infinity" then some (signed negative infinite)
    else none

/-- A point needs a digit at one of its sides. -/
example : [".5", "5.", ".", "5"].map (fun s => (parse? s.toList).isSome) =
    [true, true, false, true] := by decide +kernel

/-- An exponent needs a digit, and letter case does not count. -/
example : parse? "5E-1".toList = some (.units (Nat.pow 2 148)) ∧ parse? "5e".toList = none := by
  decide +kernel

/-- What is too great is infinite, and what is too small is zero. -/
example : parse? "1e39".toList = parse? "+INFinity".toList ∧
    parse? "1e-46".toList = parse? "-0".toList := by decide +kernel

end ContentCoding.Weight
