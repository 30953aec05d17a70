/-!
# Bit strings

A bit string is a list of bits, first bit first, and a number is written most significant bit
first. Bytes are filled from their most significant bit, so the bits of a packet are those of its
bytes in order. Bit strings say what buffers and streams hold; neither works bit by bit.
-/
namespace AreaReplication

/-- A bit string, first bit first. -/
abbrev Bits := List Bool

abbrev Packet := List UInt8

namespace Bits

/-- The low `width` bits of `value`, most significant first. -/
def ofNat : (width : Nat) → (value : Nat) → Bits
  | 0, _ => []
  | width + 1, value => value.testBit width :: ofNat width value

def unpack (packet : Packet) : Bits :=
  packet.flatMap fun byte => ofNat 8 byte.toNat

def byteCount (count : Nat) : Nat :=
  (count + 7) / 8

/-- One more than the largest number of `width` bits, for the widths that fit a byte. -/
def scale (width : Nat) : Nat := 256 >>> (8 - width)

@[simp] theorem length_ofNat (width value : Nat) : (ofNat width value).length = width := by
  induction width with
  | zero => rfl
  | succ width ih => simp [ofNat, ih]

theorem scale_eq {width : Nat} (h : width ≤ 8) : scale width = Nat.pow 2 width := by
  have cases : ∀ width ∈ List.range 9, scale width = Nat.pow 2 width := by decide
  exact cases width (List.mem_range.2 (by omega))

end Bits

end AreaReplication
