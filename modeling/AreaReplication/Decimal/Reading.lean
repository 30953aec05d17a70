import AreaReplication.Decimal.Fixed

/-!
# Reading decimal text

A number is an optional sign and then digits with at most one point among or beside them, and after
that an optional exponent; or one of the words for infinity and for no number, in either case of
letters. It stands for the nearest double.
-/
namespace AreaReplication.Decimal

def digitsNumber (digits : List Char) : Nat :=
  digits.foldl (fun value c => 10 * value + (c.toNat - '0'.toNat)) 0

/-- The power of two in which the last place of a positive quotient counts, if the quotient is
written with as many places as a double has. -/
def lastPlace (numerator denominator : Nat) : Int :=
  let power := (numerator.log2 : Int) - denominator.log2
  let reached := denominator * Nat.pow 2 power.toNat ≤ numerator * Nat.pow 2 (-power).toNat
  if reached then power - 52 else power - 53

/-- The nearest double of a positive quotient, halves to the even neighbour. A quotient that rounds
past the largest double is infinite. -/
def nearestQuotient (numerator denominator : Nat) : Binary64 :=
  let last := max (-1074) (lastPlace numerator denominator)
  let places := roundDiv (numerator * Nat.pow 2 (-last).toNat) (denominator * Nat.pow 2 last.toNat)
  let bits := (last + 1074).toNat * normalMantissa + places
  ⟨UInt64.ofNat (min bits Binary64.infinity.bits.toNat)⟩

/-- The nearest double of `significand * 10 ^ exponent`. Beyond four hundred places all is zero or
infinite. -/
def nearest (significand : Nat) (exponent : Int) : Binary64 :=
  let places : Int := (toString significand).length + exponent
  if significand = 0 ∨ places < -400 then
    .zero
  else if 400 < places then
    .infinity
  else
    nearestQuotient (significand * Nat.pow 10 exponent.toNat) (Nat.pow 10 (-exponent).toNat)

def exponent? : List Char → Option Int
  | '-' :: digits => (magnitude? digits).map fun value => -value
  | '+' :: digits => magnitude? digits
  | digits => magnitude? digits
where
  magnitude? (digits : List Char) : Option Int :=
    if !digits.isEmpty && digits.all Char.isDigit then some (digitsNumber digits) else none

def unsigned? (text : List Char) : Option Binary64 :=
  let word := String.ofList (text.map Char.toLower)
  if word = "inf" ∨ word = "infinity" then
    some .infinity
  else if word = "nan" then
    some .nan
  else
    let whole := text.takeWhile Char.isDigit
    let rest := text.dropWhile Char.isDigit
    let (fraction, rest) :=
      match rest with
      | '.' :: rest => (rest.takeWhile Char.isDigit, rest.dropWhile Char.isDigit)
      | rest => ([], rest)
    if whole.isEmpty && fraction.isEmpty then
      none
    else
      let significand := digitsNumber (whole ++ fraction)
      let scaled (exponent : Int) : Binary64 := nearest significand (exponent - fraction.length)
      match rest with
      | [] => some (scaled 0)
      | mark :: digits =>
        if mark = 'e' ∨ mark = 'E' then (exponent? digits).map scaled else none

def parseDouble (text : String) : Option Binary64 :=
  match text.toList with
  | '-' :: rest => (unsigned? rest).map Binary64.negated
  | '+' :: rest => unsigned? rest
  | rest => unsigned? rest

end AreaReplication.Decimal
