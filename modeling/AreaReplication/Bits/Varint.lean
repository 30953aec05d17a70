import AreaReplication.Bits.Buffer

/-!
# Variable-length numbers

A number is cut into groups of seven bits, least significant group first. Each group follows one
bit that says whether more groups come. Signed numbers are folded onto the naturals first, so that
a small magnitude of either sign stays short.
-/
namespace AreaReplication.Varint

def groupBits : Nat := 7

def groupBase : Nat := 128

/-- Appends `value`: each group makes a byte with the bit before it. -/
def write (value : Nat) (buffer : BitBuffer) : BitBuffer :=
  if value < groupBase then
    buffer.put 8 value
  else
    write (value / groupBase) (buffer.put 8 (groupBase + value % groupBase))
termination_by value
decreasing_by
  simp only [groupBase] at *
  omega

def significantBits (value : Nat) : Nat :=
  if value = 0 then 0 else significantBits (value / 2) + 1

def size (value : Nat) : Nat :=
  max 1 ((significantBits value + (groupBits - 1)) / groupBits) * (groupBits + 1)

/-- Folds a signed number onto the naturals: `0, -1, 1, -2, …` become `0, 1, 2, 3, …`. -/
def zigzag (value : Int32) : Nat :=
  if 0 ≤ value.toInt then 2 * value.toInt.toNat else 2 * (-value.toInt).toNat - 1

def unzigzag (folded : Nat) : Int32 :=
  if folded % 2 = 0 then Int32.ofNat (folded / 2) else Int32.ofInt (-(folded / 2 : Nat) - 1)

def maxGroups32 : Nat := 5

def maxGroups64 : Nat := 10

end AreaReplication.Varint
