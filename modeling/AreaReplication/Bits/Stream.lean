import AreaReplication.Bits.Basic

/-!
# Bit streams

A stream is what is left of a packet that is read from its first bit on. Numbers are taken from it
byte by byte, wherever in a byte they start.
-/
namespace AreaReplication

structure BitStream where
  /-- How many bits of the current byte are left. -/
  count : Nat := 0
  /-- A number whose low bits are those. -/
  current : Nat := 0
  /-- The bytes after the current one. -/
  bytes : Packet
  count_le : count ≤ 8 := by decide
  deriving DecidableEq, Repr

namespace BitStream

def ofPacket (packet : Packet) : BitStream := { bytes := packet }

def bits (stream : BitStream) : Bits :=
  Bits.ofNat stream.count stream.current ++ Bits.unpack stream.bytes

def length (stream : BitStream) : Nat := stream.count + 8 * stream.bytes.length

def isEmpty (stream : BitStream) : Bool := stream.count == 0 && stream.bytes.isEmpty

/-- The number that `value` becomes with `width` more bits behind it, and what is left after those.
They are the low `count` bits of `current` and then the bits of the bytes. -/
def takeFrom (width value count current : Nat) (fits : count ≤ 8) (bytes : Packet) :
    Option (Nat × BitStream) :=
  let low := current % Bits.scale count
  if width ≤ count then
    some (value * Bits.scale width + low >>> (count - width),
      { count := count - width, current, bytes, count_le := by omega })
  else
    match bytes with
    | [] => none
    | byte :: bytes =>
      takeFrom (width - count) (value * Bits.scale count + low) 8 byte.toNat (by decide) bytes

def take? (width : Nat) (stream : BitStream) : Option (Nat × BitStream) :=
  takeFrom width 0 stream.count stream.current stream.count_le stream.bytes

end BitStream

end AreaReplication
