import AreaReplication.Binary64
import AreaReplication.Bits.Error
import AreaReplication.Bits.Stream
import AreaReplication.Bits.Varint

/-!
# Reading bit streams

A reader consumes the first bits of those that are left. Asking for more bits than are left fails
without consuming any, and a number that fails in a later group leaves its earlier groups consumed,
so the bits left after a failure are part of the answer.
-/
namespace AreaReplication

/-- A reader of `α` that fails with `ε`; either way it says which bits are left. -/
abbrev Reader (ε : Type) := EStateM ε BitStream

namespace Reader

def bits (width : Nat) : Reader BitError Nat := fun stream =>
  if maxFieldWidth < width then
    .error (.widthTooLarge width) stream
  else
    match stream.take? width with
    | some (value, rest) => .ok value rest
    | none => .error (.endOfInput width stream.length) stream

def bit : Reader BitError Bool := do
  return (← bits 1) == 1

/-- Groups of a variable-length number, from the one of the given weight on, added to `value`. At
most `groups` of them are read, and none may carry the number past 64 bits. -/
def groups (maxGroups : Nat) : (groups weight value : Nat) → Reader BitError Nat
  | 0, _, _ => throw (.overlongNumber maxGroups)
  | left + 1, weight, value => do
    let more ← bit
    let group ← bits Varint.groupBits
    let weighted := group * weight
    if weighted < UInt64.size then
      let value := value + weighted
      if more then
        groups maxGroups left (weight * Varint.groupBase) value
      else
        return value
    else
      throw (.overlongNumber maxGroups)

def number (maxGroups : Nat) : Reader BitError Nat :=
  groups maxGroups maxGroups 1 0

def varu64 : Reader BitError UInt64 := do
  return UInt64.ofNat (← number Varint.maxGroups64)

def varu32 : Reader BitError UInt32 := do
  let value ← number Varint.maxGroups32
  if value < UInt32.size then
    return UInt32.ofNat value
  else
    throw (.overlongNumber Varint.maxGroups32)

def vars32 : Reader BitError Int32 := do
  return Varint.unzigzag (← varu32).toNat

def double : Reader BitError Binary64 := do
  return ⟨UInt64.ofNat (← bits 64)⟩

def optional {ε α : Type} (flag : Reader ε Bool) (read : Reader ε α) : Reader ε (Option α) := do
  if ← flag then
    return some (← read)
  else
    return none

/-- Exactly `times` values, stopping at the first that fails. -/
def count {ε α : Type} (read : Reader ε α) : (times : Nat) → Reader ε (List α)
  | 0 => return []
  | left + 1 => do
    let first ← read
    let rest ← count read left
    return first :: rest

def mapError {ε ε' α : Type} (restate : ε → ε') (read : Reader ε α) : Reader ε' α := fun stream =>
  match read stream with
  | .ok value rest => .ok value rest
  | .error error rest => .error (restate error) rest

end Reader

end AreaReplication
