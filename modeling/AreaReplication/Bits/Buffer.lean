import AreaReplication.Bits.Basic

/-!
# Bit buffers

A buffer takes numbers of any width up to 64 bits and keeps whole bytes. Bits that do not fill a
byte wait for the next number; at the end the last byte is padded with zeros.
-/
namespace AreaReplication

structure BitBuffer where
  /-- The whole bytes, the last one first. -/
  bytes : Packet := []
  /-- How many bits wait for the rest of their byte. -/
  count : Nat := 0
  /-- A number whose low bits are those. -/
  pending : Nat := 0
  count_lt : count < 8 := by decide
  deriving DecidableEq, Repr

namespace BitBuffer

def bits (buffer : BitBuffer) : Bits :=
  Bits.unpack buffer.bytes.reverse ++ Bits.ofNat buffer.count buffer.pending

def bitCount (buffer : BitBuffer) : Nat := 8 * buffer.bytes.length + buffer.count

def byteCount (buffer : BitBuffer) : Nat := Bits.byteCount buffer.bitCount

def put (width value : Nat) (buffer : BitBuffer) (fits : width ≤ 8 := by decide) : BitBuffer :=
  let count := buffer.count + width
  let pending := buffer.pending * Bits.scale width + value % Bits.scale width
  if h : count < 8 then
    { buffer with count, pending, count_lt := h }
  else
    have := buffer.count_lt
    { bytes := UInt8.ofNat (pending >>> (count - 8)) :: buffer.bytes
      count := count - 8
      pending := pending % Bits.scale (count - 8)
      count_lt := by omega }

def putFlag (flag : Bool) (buffer : BitBuffer) : BitBuffer := buffer.put 1 flag.toNat

def putBytes : (bytes : Nat) → (word : UInt64) → BitBuffer → BitBuffer
  | 0, _, buffer => buffer
  | bytes + 1, word, buffer =>
    putBytes bytes word (buffer.put 8 (word >>> UInt64.ofNat (8 * bytes)).toUInt8.toNat)

def putWord (width : Nat) (word : UInt64) (buffer : BitBuffer) : BitBuffer :=
  let bytes := width / 8
  let high := (word >>> UInt64.ofNat (8 * bytes)).toUInt8.toNat
  putBytes bytes word (buffer.put (width % 8) high (by omega))

/-- The packed bytes; a partial last byte is padded with zeros. -/
def finish (buffer : BitBuffer) : Packet :=
  if buffer.count = 0 then
    buffer.bytes.reverse
  else
    (UInt8.ofNat (buffer.pending * Bits.scale (8 - buffer.count)) :: buffer.bytes).reverse

def finishInto (buffer : BitBuffer) (front : Packet) : Packet := front ++ buffer.finish

end BitBuffer

end AreaReplication
