import ContentCoding.Text

/-!
# Weights

The weight of a list entry is a single-precision number. Every such number is a
whole multiple of the smallest positive one, 2⁻¹⁴⁹, so a weight is kept as that
multiple. Infinity is the first power of two beyond the finite numbers, 2¹²⁸: kept
as that many units, it stands above all of them.

* `round_eq_nearest`: below 2²⁴ units the grid of weights is the grid of units.
-/

namespace ContentCoding

/-- **A weight.** Not a number, or a multiple of the smallest positive weight. -/
inductive Weight
  | nan
  | units (n : Int)
  deriving DecidableEq, Repr, Inhabited

namespace Weight

/-- The significant binary digits of a weight. -/
def precision : Nat := 24

/-- The units of infinity: the greatest finite weights are `2 ^ 253` units apart, and the
one that would follow them is infinite. -/
def infinite : Nat := Nat.pow 2 precision * Nat.pow 2 253

/-- The exponent of the unit: it is `2 ^ (-unitExponent)`. -/
def unitExponent : Nat := 149

/-- The weight of an entry that states none. -/
def one : Weight := .units (Nat.pow 2 unitExponent)

/-- **The natural number nearest to a quotient**; of two, the even one. -/
def nearest (num den : Nat) : Nat :=
  let q := num / den
  let r := num % den
  if 2 * r < den then q else if den < 2 * r then q + 1 else q + q % 2

/-- **Rounding.** The units of the weight nearest to `num / den` units: the grid is
coarser by as many binary digits as the quotient has beyond the precision. -/
def round (num den : Nat) : Nat :=
  let step := Nat.pow 2 (Nat.log2 (num / den) + 1 - precision)
  min (nearest num (den * step) * step) infinite

/-- The number of decimal digits. -/
def digitCount (n : Nat) : Nat := (Nat.toDigits 10 n).length

/-- **The units of a decimal**, `n * 10 ^ e`. Decimals that are infinite or zero whatever
their digits are told by their magnitude alone, so that no long power is computed. -/
def ofDecimal (n : Nat) (e : Int) : Nat :=
  let magnitude := (digitCount n : Int) + e
  if n = 0 ∨ magnitude ≤ -46 then 0
  else if 40 ≤ magnitude then infinite
  else if 0 ≤ e then round (n * Nat.pow 10 e.toNat * Nat.pow 2 unitExponent) 1
  else round (n * Nat.pow 2 unitExponent) (Nat.pow 10 (-e).toNat)

/-- The weight of so many units, with a sign. -/
def signed (negative : Bool) (n : Nat) : Weight :=
  .units (if negative then -(n : Int) else n)

/-- Whether one weight is smaller than another. No weight is smaller or greater than `nan`. -/
def lt : Weight → Weight → Bool
  | .units m, .units n => m < n
  | _, _ => false

/-- Whether two weights are the same number. `nan` is not the same as itself. -/
def same : Weight → Weight → Bool
  | .units m, .units n => m == n
  | _, _ => false

/-- Whether the weight refuses its entry: it is a number and not positive. -/
def isRefusal : Weight → Bool
  | .units n => n ≤ 0
  | .nan => false

theorem round_eq_nearest {num den : Nat} (h : num / den < Nat.pow 2 precision) :
    round num den = nearest num den := by
  have hs : Nat.log2 (num / den) + 1 - precision = 0 := by
    by_cases h0 : num / den = 0
    · simp [h0, precision]
    · have := (Nat.log2_lt h0).2 h
      omega
  have hn : nearest num den ≤ num / den + 1 := by
    simp only [nearest]
    split
    · omega
    · split
      · omega
      · have := Nat.mod_lt (num / den) (by decide : 0 < 2)
        omega
  have hi : nearest num den ≤ infinite := by
    exact Nat.le_trans hn (Nat.le_trans (Nat.succ_le_of_lt h)
      (Nat.le_mul_of_pos_right _ (Nat.two_pow_pos _)))
  simp [round, hs, Nat.min_eq_left hi]

end Weight

end ContentCoding
