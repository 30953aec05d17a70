import AreaReplication.Binary64

/-!
# The fewest digits that read back

A finite double stands for all numbers that round to it. Among the decimals in that interval with
the fewest digits, the one nearest to the exact value is chosen. Grids of powers of ten are tried
from the coarsest on; on each, only the two neighbours of the value can be hits.
-/
namespace AreaReplication.Decimal

/-- The number `digits * 10 ^ exponent`. -/
structure Scientific where
  digits : Nat
  exponent : Int
  deriving DecidableEq, Repr

inductive Tie where
  | toEven
  | upward
  deriving DecidableEq, Repr

/-- A finite number of at least zero as `mantissa * 2 ^ exponent`. -/
structure Exact where
  mantissa : Nat
  exponent : Int
  deriving DecidableEq, Repr

def normalMantissa : Nat := 4503599627370496

def Exact.ofBinary64 (value : Binary64) : Exact :=
  let magnitude := value.magnitude.toNat
  let fraction := magnitude % normalMantissa
  match magnitude / normalMantissa with
  | 0 => { mantissa := fraction, exponent := -1074 }
  | biased => { mantissa := normalMantissa + fraction, exponent := (biased : Int) - 1075 }

/-- The numbers that round to a double, as multiples of `1 / unit`. -/
structure Interval where
  value : Nat
  low : Nat
  high : Nat
  unit : Nat
  /-- The two ends belong to the interval. -/
  closed : Bool
  deriving DecidableEq, Repr

/-- The interval of a positive double. Below a power of two the neighbours are half as far away. -/
def Exact.interval (exact : Exact) : Interval :=
  let gapBelow :=
    if exact.mantissa = normalMantissa ∧ -1074 < exact.exponent then 1 else 2
  let scale := exact.exponent - 2
  let times := Nat.pow 2 scale.toNat
  { value := 4 * exact.mantissa * times
    low := (4 * exact.mantissa - gapBelow) * times
    high := (4 * exact.mantissa + 2) * times
    unit := Nat.pow 2 (-scale).toNat
    closed := exact.mantissa % 2 = 0 }

def Interval.contains (interval : Interval) (point : Nat) : Bool :=
  if interval.closed then
    interval.low ≤ point && point ≤ interval.high
  else
    interval.low < point && point < interval.high

/-- The nearest hit on the grid of multiples of `10 ^ exponent`, if there is one. -/
def Interval.hit (interval : Interval) (tie : Tie) (exponent : Int) : Option Nat :=
  let finer := Nat.pow 10 (-exponent).toNat
  let scaled : Interval :=
    { value := interval.value * finer, low := interval.low * finer, high := interval.high * finer
      unit := interval.unit * Nat.pow 10 exponent.toNat, closed := interval.closed }
  let below := scaled.value / scaled.unit
  let above := below + 1
  let toBelow := scaled.value - below * scaled.unit
  let toAbove := above * scaled.unit - scaled.value
  let belowHits := scaled.contains (below * scaled.unit)
  let aboveHits := scaled.contains (above * scaled.unit)
  if belowHits && aboveHits then
    if toBelow < toAbove then
      some below
    else if toAbove < toBelow then
      some above
    else
      match tie with
      | .toEven => some (if below % 2 = 0 then below else above)
      | .upward => some above
  else if belowHits then
    some below
  else if aboveHits then
    some above
  else
    none

def Interval.search (interval : Interval) (tie : Tie) : (tries : Nat) → Int → Scientific
  | 0, exponent => { digits := 0, exponent }
  | tries + 1, exponent =>
    match interval.hit tie exponent with
    | some digits => { digits, exponent }
    | none => interval.search tie tries (exponent - 1)

/-- The shortest digits of a finite double, without its sign. Seventeen digits always suffice, and
the search starts at most two grids too coarse. -/
def shortest (tie : Tie) (value : Binary64) : Scientific :=
  let exact := Exact.ofBinary64 value
  if exact.mantissa = 0 then
    { digits := 0, exponent := 0 }
  else
    let magnitude := exact.exponent + exact.mantissa.log2
    exact.interval.search tie 24 (magnitude * 30103 / 100000 + 1)

/-- Decimal text without an exponent; `point` is written only if there is a fraction or
`keepPoint` asks for one. -/
def Scientific.positional (number : Scientific) (keepPoint : Bool) : String :=
  let digits := (toString number.digits).toList
  if 0 ≤ number.exponent then
    let zeros := if number.digits = 0 then [] else List.replicate number.exponent.toNat '0'
    String.ofList (digits ++ zeros) ++ (if keepPoint then ".0" else "")
  else
    let places := (-number.exponent).toNat
    let digits := List.replicate (places + 1 - digits.length) '0' ++ digits
    let whole := digits.take (digits.length - places)
    let fraction := digits.drop (digits.length - places)
    String.ofList whole ++ "." ++ String.ofList fraction

def Scientific.exponential (number : Scientific) : String :=
  let digits := (toString number.digits).toList
  let power := number.exponent + (digits.length - 1 : Nat)
  let fraction := digits.drop 1
  String.ofList (digits.take 1) ++
    (if fraction.isEmpty then "" else "." ++ String.ofList fraction) ++
    (if 0 ≤ power then s!"e+{power.toNat}" else s!"e-{(-power).toNat}")

def signText (value : Binary64) : String := if value.isNegative then "-" else ""

/-- A plain number: shortest digits, never an exponent, no point in a whole number. -/
def plain (value : Binary64) : String :=
  if value.isNaN then
    "NaN"
  else if value.isInfinite then
    signText value ++ "inf"
  else
    signText value ++ (shortest .upward value).positional false

end AreaReplication.Decimal
