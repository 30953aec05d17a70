import AreaReplication.Decimal.Reading
import AreaReplication.Json.Basic

/-!
# Reading JSON text

A text holds one value between blanks. Whole numbers that fit 64 bits stay exact, and any other
number is the nearest double. A number beyond all doubles, half a surrogate pair and a deep nest of
arrays have no value; only a lenient reading takes them.
-/
namespace AreaReplication.Json

inductive Reading where
  | strict
  /-- Half a surrogate pair is a replacement character, a number beyond all doubles infinite. -/
  | lenient
  deriving DecidableEq, Repr

abbrev Input := List Char

def isBlank (c : Char) : Bool := c = ' ' || c = '\n' || c = '\t' || c = '\r'

def skipBlanks (input : Input) : Input := input.dropWhile isBlank

def expect : (word : List Char) → Input → Option Input
  | [], input => some input
  | c :: word, d :: input => if c = d then expect word input else none
  | _ :: _, [] => none

def digitValue (c : Char) : Nat := c.toNat - '0'.toNat

def digits (input : Input) : List Nat × Input :=
  ((input.takeWhile Char.isDigit).map digitValue, input.dropWhile Char.isDigit)

def digitsNumber (digits : List Nat) : Nat :=
  digits.foldl (fun value digit => 10 * value + digit) 0

structure Numeral where
  negative : Bool
  whole : List Nat
  fraction : Option (List Nat)
  exponent : Option Int
  deriving DecidableEq, Repr

/-- The double nearest to a numeral; a minus sign is kept by zero too. -/
def Numeral.toDouble (numeral : Numeral) : Binary64 :=
  let places := numeral.fraction.getD []
  let value := Decimal.nearest (digitsNumber (numeral.whole ++ places))
    (numeral.exponent.getD 0 - places.length)
  if numeral.negative then value.negated else value

/-- A numeral of whole digits alone is a whole number if it fits 64 bits; minus zero and every other
numeral is a double. -/
def Numeral.toJson (numeral : Numeral) : Json :=
  let magnitude := digitsNumber numeral.whole
  if numeral.fraction.isSome ∨ numeral.exponent.isSome then
    .float numeral.toDouble
  else if numeral.negative then
    if 0 < magnitude ∧ magnitude ≤ UInt64.size / 2 then .int (-magnitude)
    else .float numeral.toDouble
  else
    if magnitude < UInt64.size then .int magnitude else .float numeral.toDouble

def fractionPart : Input → Option (Option (List Nat) × Input)
  | '.' :: input =>
    match digits input with
    | ([], _) => none
    | (places, rest) => some (some places, rest)
  | input => some (none, input)

/-- No double needs an exponent of this size. -/
def maxExponent : Nat := 2147483648

def exponentPart : Input → Option (Option Int × Input)
  | 'e' :: input => signed input
  | 'E' :: input => signed input
  | input => some (none, input)
where
  magnitude (negative : Bool) (input : Input) : Option (Option Int × Input) :=
    match digits input with
    | ([], _) => none
    | (places, rest) =>
      let value := places.foldl (fun (value digit : Nat) => min (10 * value + digit) maxExponent) 0
      some (some (if negative then -(value : Int) else value), rest)
  signed : Input → Option (Option Int × Input)
    | '+' :: input => magnitude false input
    | '-' :: input => magnitude true input
    | input => magnitude false input

def isInfinite : Json → Bool
  | float value => !value.isFinite
  | _ => false

/-- A number; only a lone zero may lead the whole part. -/
def number (reading : Reading) (negative : Bool) (input : Input) : Option (Json × Input) := do
  let (whole, rest) := digits input
  if whole.isEmpty || (whole.head? = some 0 && 1 < whole.length) then
    none
  else
    let (fraction, rest) ← fractionPart rest
    let (exponent, rest) ← exponentPart rest
    let numeral : Numeral := { negative, whole, fraction, exponent }
    if reading = .strict && isInfinite numeral.toJson then none else some (numeral.toJson, rest)

def hexDigit (c : Char) : Option Nat :=
  if c.isDigit then some (c.toNat - '0'.toNat)
  else if 'a' ≤ c ∧ c ≤ 'f' then some (c.toNat - 'a'.toNat + 10)
  else if 'A' ≤ c ∧ c ≤ 'F' then some (c.toNat - 'A'.toNat + 10)
  else none

def codeUnit : Input → Option (Nat × Input)
  | a :: b :: c :: d :: rest => do
    let a ← hexDigit a
    let b ← hexDigit b
    let c ← hexDigit c
    let d ← hexDigit d
    some (((a * 16 + b) * 16 + c) * 16 + d, rest)
  | _ => none

def replacement : Char := Char.ofNat 0xFFFD

/-- The character of one or two code units; a surrogate must have its partner. -/
def pairedEscape (input : Input) : Option (Char × Input) := do
  let (unit, rest) ← codeUnit input
  if 0xD800 ≤ unit ∧ unit < 0xDC00 then
    let rest ← expect ['\\', 'u'] rest
    let (low, rest) ← codeUnit rest
    if 0xDC00 ≤ low ∧ low < 0xE000 then
      some (Char.ofNat (0x10000 + (unit - 0xD800) * 0x400 + (low - 0xDC00)), rest)
    else
      none
  else if 0xDC00 ≤ unit ∧ unit < 0xE000 then
    none
  else
    some (Char.ofNat unit, rest)

/-- The character behind `u`. A lenient reading takes half a pair alone. -/
def unicodeEscape (reading : Reading) (input : Input) : Option (Char × Input) :=
  match pairedEscape input with
  | some read => some read
  | none =>
    if reading = .lenient then
      (codeUnit input).map fun (_, rest) => (replacement, rest)
    else
      none

def escaped (reading : Reading) : Input → Option (Char × Input)
  | '"' :: rest => some ('"', rest)
  | '\\' :: rest => some ('\\', rest)
  | '/' :: rest => some ('/', rest)
  | 'b' :: rest => some (Char.ofNat 8, rest)
  | 'f' :: rest => some (Char.ofNat 12, rest)
  | 'n' :: rest => some ('\n', rest)
  | 'r' :: rest => some ('\r', rest)
  | 't' :: rest => some ('\t', rest)
  | 'u' :: rest => unicodeEscape reading rest
  | _ => none

/-- The rest of a string behind its opening quote; `done` holds what was read, last first. -/
def stringTail (reading : Reading) :
    (fuel : Nat) → Input → (done : List Char) → Option (String × Input)
  | 0, _, _ => none
  | _ + 1, [], _ => none
  | fuel + 1, c :: rest, done =>
    if c = '"' then
      some (String.ofList done.reverse, rest)
    else if c = '\\' then
      match escaped reading rest with
      | some (c, rest) => stringTail reading fuel rest (c :: done)
      | none => none
    else if c.toNat < 32 then
      none
    else
      stringTail reading fuel rest (c :: done)

mutual

/-- One value, of which the items and fields are read as `inner` says. `fuel` bounds the number of
values, items and fields still to come. -/
def value (reading inner : Reading) : (fuel : Nat) → Input → Option (Json × Input)
  | 0, _ => none
  | fuel + 1, input =>
    match skipBlanks input with
    | 'n' :: rest => (expect ['u', 'l', 'l'] rest).map fun rest => (null, rest)
    | 't' :: rest => (expect ['r', 'u', 'e'] rest).map fun rest => (bool true, rest)
    | 'f' :: rest => (expect ['a', 'l', 's', 'e'] rest).map fun rest => (bool false, rest)
    | '"' :: rest => (stringTail reading fuel rest []).map fun (text, rest) => (string text, rest)
    | '[' :: rest =>
      match skipBlanks rest with
      | ']' :: rest => some (array [], rest)
      | rest => (arrayTail inner fuel rest []).map fun (items, rest) => (array items, rest)
    | '\x7b' :: rest =>
      match skipBlanks rest with
      | '\x7d' :: rest => some (object [], rest)
      | rest =>
        (objectTail reading inner fuel rest []).map fun (fields, rest) => (object fields, rest)
    | '-' :: rest => number reading true rest
    | rest => number reading false rest

def arrayTail (inner : Reading) :
    (fuel : Nat) → Input → (done : List Json) → Option (List Json × Input)
  | 0, _, _ => none
  | fuel + 1, input, done =>
    match value inner inner fuel input with
    | none => none
    | some (item, rest) =>
      match skipBlanks rest with
      | ',' :: rest => arrayTail inner fuel rest (item :: done)
      | ']' :: rest => some ((item :: done).reverse, rest)
      | _ => none

def objectTail (reading inner : Reading) :
    (fuel : Nat) → Input → (done : List (String × Json)) → Option (List (String × Json) × Input)
  | 0, _, _ => none
  | fuel + 1, input, done =>
    match skipBlanks input with
    | '"' :: rest =>
      match stringTail reading fuel rest [] with
      | none => none
      | some (name, rest) =>
        match skipBlanks rest with
        | ':' :: rest =>
          match value inner inner fuel rest with
          | none => none
          | some (field, rest) =>
            match skipBlanks rest with
            | ',' :: rest => objectTail reading inner fuel rest ((name, field) :: done)
            | '\x7d' :: rest => some (((name, field) :: done).reverse, rest)
            | _ => none
        | _ => none
    | _ => none

end

/-- The value that a text holds, of which the items and fields are read as `inner` says. Each step
of the reader consumes a character, so the length of the text bounds the steps. -/
def parseWith (inner : Reading) (text : String) : Option Json :=
  let input := text.toList
  match value .strict inner (input.length + 1) input with
  | some (json, rest) => if (skipBlanks rest).isEmpty then some json else none
  | none => none

def maxDepth : Nat := 127

/-- The value that a text holds, unless it is nested too deeply. -/
def parse? (text : String) : Option Json :=
  (parseWith .strict text).filter fun json => decide (json.depth ≤ maxDepth)

/-- The value that a text holds, of which only the outermost level is read strictly; what lies
within may be nested to any depth. -/
def parseShallow? (text : String) : Option Json := parseWith .lenient text

end AreaReplication.Json
