/-!
# Faults of single bit-level operations
-/
namespace AreaReplication

inductive BitError where
  | widthTooLarge (width : Nat)
  | valueTooWide (value width : Nat)
  /-- The input ended before the requested bits; nothing was consumed. -/
  | endOfInput (requested available : Nat)
  /-- A variable-length number ran past the width of its type. -/
  | overlongNumber (maxGroups : Nat)
  deriving DecidableEq, Repr

def maxFieldWidth : Nat := 64

def BitError.message : BitError → String
  | .widthTooLarge width => s!"invalid bit count {width}, at most {maxFieldWidth} allowed"
  | .valueTooWide value width => s!"value {value} does not fit in {width} bits"
  | .endOfInput requested available =>
    s!"unexpected end of input: requested {requested} bits, {available} available"
  | .overlongNumber maxGroups => s!"varint longer than {maxGroups} groups"

end AreaReplication
