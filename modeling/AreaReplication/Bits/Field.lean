import AreaReplication.Bits.Reader

/-!
# Fields of a bit stream

A field is one value in one layout. A buffer accepts fields one after the other; a field that does
not fit its width is refused and leaves the buffer alone. Each layout has a reader, so a buffer can
be read back field by field.
-/
namespace AreaReplication

inductive Field where
  | flag (value : Bool)
  | word (value : UInt64) (width : Nat)
  | varu32 (value : UInt32)
  | varu64 (value : UInt64)
  | vars32 (value : Int32)
  | double (value : Binary64)
  deriving DecidableEq, Repr

inductive Layout where
  | flag
  | word (width : Nat)
  | varu32
  | varu64
  | vars32
  | double
  deriving DecidableEq, Repr

namespace Field

def layout : Field → Layout
  | flag _ => .flag
  | word _ width => .word width
  | varu32 _ => .varu32
  | varu64 _ => .varu64
  | vars32 _ => .vars32
  | double _ => .double

def fault? : Field → Option BitError
  | word value width =>
    if maxFieldWidth < width then
      some (.widthTooLarge width)
    else if Nat.pow 2 width ≤ value.toNat then
      some (.valueTooWide value.toNat width)
    else
      none
  | _ => none

def write : Field → BitBuffer → BitBuffer
  | flag value => BitBuffer.putFlag value
  | word value width => BitBuffer.putWord width value
  | varu32 value => Varint.write value.toNat
  | varu64 value => Varint.write value.toNat
  | vars32 value => Varint.write (Varint.zigzag value)
  | double value => BitBuffer.putBytes 8 value.bits

end Field

def Layout.read : Layout → Reader BitError Field
  | flag => return .flag (← Reader.bit)
  | word width => return .word (UInt64.ofNat (← Reader.bits width)) width
  | varu32 => return .varu32 (← Reader.varu32)
  | varu64 => return .varu64 (← Reader.varu64)
  | vars32 => return .vars32 (← Reader.vars32)
  | double => return .double (← Reader.double)

/-- Appends a field; a refused one leaves the buffer as it was. -/
def BitBuffer.append (buffer : BitBuffer) (field : Field) : Except BitError Unit × BitBuffer :=
  match field.fault? with
  | some fault => (.error fault, buffer)
  | none => (.ok (), field.write buffer)

end AreaReplication
