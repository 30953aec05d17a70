import AreaReplication.Decimal.Shortest

/-!
# A fixed number of decimal places
-/
namespace AreaReplication.Decimal

/-- The quotient rounded to the nearest whole number, halves to the even neighbour. -/
def roundDiv (numerator denominator : Nat) : Nat :=
  let below := numerator / denominator
  let rest := 2 * (numerator % denominator)
  if rest < denominator then
    below
  else if denominator < rest then
    below + 1
  else
    below + below % 2

/-- A finite double of at least zero, rounded to `places` decimal places. -/
def fixed (places : Nat) (value : Binary64) : String :=
  let exact := Exact.ofBinary64 value
  let numerator := exact.mantissa * Nat.pow 10 places * Nat.pow 2 exact.exponent.toNat
  let scaled := roundDiv numerator (Nat.pow 2 (-exact.exponent).toNat)
  if places = 0 then
    toString scaled
  else
    ({ digits := scaled, exponent := -(places : Int) } : Scientific).positional true

end AreaReplication.Decimal
