import AreaReplication.Bits.Buffer
import AreaReplication.Bits.Stream
import Mathlib.Algebra.Order.Ring.Nat
import Mathlib.Tactic.Ring

/-!
# What buffers and streams hold

A buffer holds the bits written to it, in order, and its bytes are those bits filled up with zeros.
A stream holds the bits left to read, and a number taken from it is the number that the first of
them make.
-/
namespace AreaReplication

namespace Bits

/-- The number that a bit string makes, its first bit being the most significant one. -/
def toNat (bits : Bits) : Nat := bits.foldl (fun value bit => 2 * value + bit.toNat) 0

/-- A number whose bits are split after the first `m`. -/
theorem ofNat_add (m n value : Nat) :
    ofNat (m + n) value = ofNat m (value / 2 ^ n) ++ ofNat n value := by
  induction m with
  | zero => simp [ofNat]
  | succ m ih =>
    rw [Nat.succ_add, ofNat, ofNat, ih, Nat.testBit_div_two_pow, List.cons_append]

/-- Only the low bits of a number count. -/
theorem ofNat_mod {width bound : Nat} (h : width ≤ bound) (value : Nat) :
    ofNat width (value % 2 ^ bound) = ofNat width value := by
  induction width with
  | zero => rfl
  | succ width ih =>
    rw [ofNat, ofNat, ih (by omega), Nat.testBit_mod_two_pow,
      decide_eq_true (by omega : width < bound), Bool.true_and]

theorem ofNat_zero (width : Nat) : ofNat width 0 = List.replicate width false := by
  induction width with
  | zero => rfl
  | succ width ih => rw [ofNat, ih, Nat.zero_testBit, List.replicate_succ]

/-- A number put behind another. -/
theorem ofNat_append (m n high low : Nat) :
    ofNat (m + n) (high * 2 ^ n + low % 2 ^ n) = ofNat m high ++ ofNat n low := by
  have hlow : low % 2 ^ n < 2 ^ n := Nat.mod_lt _ (Nat.two_pow_pos n)
  have hdiv : (high * 2 ^ n + low % 2 ^ n) / 2 ^ n = high := by
    rw [Nat.mul_comm, Nat.mul_add_div (Nat.two_pow_pos n), Nat.div_eq_of_lt hlow, Nat.add_zero]
  have hmod : (high * 2 ^ n + low % 2 ^ n) % 2 ^ n = low % 2 ^ n := by
    rw [Nat.mul_comm, Nat.mul_add_mod, Nat.mod_mod]
  rw [ofNat_add, hdiv, ← ofNat_mod (Nat.le_refl n) (high * 2 ^ n + _), hmod,
    ofNat_mod (Nat.le_refl n)]

theorem toNat_foldl (bits : Bits) (value : Nat) :
    bits.foldl (fun value bit => 2 * value + bit.toNat) value =
      value * 2 ^ bits.length + toNat bits := by
  induction bits generalizing value with
  | nil => simp [toNat]
  | cons bit rest ih =>
    have first : toNat (bit :: rest) = bit.toNat * 2 ^ rest.length + toNat rest := by
      rw [toNat, List.foldl_cons, ih, Nat.mul_zero, Nat.zero_add]
    rw [List.foldl_cons, ih, first, List.length_cons]
    ring

theorem toNat_append (first second : Bits) :
    toNat (first ++ second) = toNat first * 2 ^ second.length + toNat second := by
  rw [toNat, List.foldl_append, toNat_foldl]
  rfl

@[simp] theorem toNat_ofNat (width value : Nat) :
    toNat (ofNat width value) = value % 2 ^ width := by
  induction width with
  | zero => simp [ofNat, toNat, Nat.mod_one]
  | succ width ih =>
    have split : ofNat (width + 1) value = [value.testBit width] ++ ofNat width value := rfl
    rw [split, toNat_append, ih, length_ofNat, Nat.mod_pow_succ, ← Nat.toNat_testBit]
    simp [toNat, Nat.add_comm, Nat.mul_comm]

@[simp] theorem unpack_nil : unpack [] = [] := rfl

theorem unpack_cons (byte : UInt8) (packet : Packet) :
    unpack (byte :: packet) = ofNat 8 byte.toNat ++ unpack packet := rfl

theorem unpack_append (front back : Packet) :
    unpack (front ++ back) = unpack front ++ unpack back := List.flatMap_append

theorem unpack_concat (packet : Packet) (byte : UInt8) :
    unpack (packet ++ [byte]) = unpack packet ++ ofNat 8 byte.toNat := by
  rw [unpack_append, unpack_cons, unpack_nil, List.append_nil]

@[simp] theorem length_unpack (packet : Packet) : (unpack packet).length = 8 * packet.length := by
  induction packet with
  | nil => rfl
  | cons byte rest ih =>
    rw [unpack_cons, List.length_append, length_ofNat, ih, List.length_cons]
    omega

/-- A shift within a word is by the whole amount. -/
theorem toNat_shift {amount : Nat} (h : amount < 64) :
    (UInt64.ofNat amount).toNat % 64 = amount := by
  rw [UInt64.toNat_ofNat']
  omega

/-- The byte made of eight bits holds them. -/
theorem ofNat_byte (value : Nat) : ofNat 8 (UInt8.ofNat value).toNat = ofNat 8 value := by
  rw [UInt8.toNat_ofNat', ofNat_mod (Nat.le_refl 8)]

end Bits

open Bits

namespace BitBuffer

@[simp] theorem length_bits (buffer : BitBuffer) : buffer.bits.length = buffer.bitCount := by
  simp [bits, bitCount]

/-- A number is appended by its low bits, wherever in a byte they start. -/
@[simp] theorem bits_put (width value : Nat) (buffer : BitBuffer) (fits : width ≤ 8) :
    (buffer.put width value fits).bits = buffer.bits ++ ofNat width value := by
  have joined := ofNat_append buffer.count width buffer.pending value
  have scaled : scale width = 2 ^ width := scale_eq fits
  simp only [put, scaled]
  split
  · simp only [bits]
    rw [joined, List.append_assoc]
  · next full =>
    -- The byte that is now full takes the first eight bits, the others wait.
    generalize hp : buffer.pending * 2 ^ width + value % 2 ^ width = pending at joined ⊢
    obtain ⟨count, hcount⟩ : ∃ count, buffer.count + width = 8 + count :=
      ⟨buffer.count + width - 8, by omega⟩
    have rest : scale count = 2 ^ count := scale_eq (by have := buffer.count_lt; omega)
    simp only [bits, hcount, Nat.add_sub_cancel_left, rest, List.reverse_cons, unpack_concat,
      ofNat_byte, Nat.shiftRight_eq_div_pow, ofNat_mod (Nat.le_refl count), List.append_assoc]
    rw [← ofNat_add, ← hcount, joined]

theorem bits_putFlag (flag : Bool) (buffer : BitBuffer) :
    (buffer.putFlag flag).bits = buffer.bits ++ [flag] := by
  rw [putFlag, bits_put]
  cases flag <;> rfl

/-- What a shift by whole bytes leaves of a word. -/
theorem ofNat_shift {bytes width : Nat} (h : bytes < 8) (fits : width ≤ 8) (word : UInt64) :
    ofNat width (word >>> UInt64.ofNat (8 * bytes)).toUInt8.toNat =
      ofNat width (word.toNat / 2 ^ (8 * bytes)) := by
  rw [UInt64.toNat_toUInt8, ofNat_mod fits, UInt64.toNat_shiftRight, toNat_shift (by omega),
    Nat.shiftRight_eq_div_pow]

theorem bits_putBytes {bytes : Nat} (h : bytes ≤ 8) (word : UInt64) (buffer : BitBuffer) :
    (putBytes bytes word buffer).bits = buffer.bits ++ ofNat (8 * bytes) word.toNat := by
  induction bytes generalizing buffer with
  | zero => simp [putBytes, ofNat]
  | succ bytes ih =>
    rw [putBytes, ih (by omega), bits_put, ofNat_shift h (Nat.le_refl 8), List.append_assoc,
      ← ofNat_add]
    congr 2
    omega

/-- The bits that do not fill a byte come first. -/
theorem bits_putWord {width : Nat} (h : width ≤ 64) (word : UInt64) (buffer : BitBuffer) :
    (putWord width word buffer).bits = buffer.bits ++ ofNat width word.toNat := by
  have whole : width / 8 ≤ 8 := Nat.div_le_of_le_mul h
  have parts : width % 8 + 8 * (width / 8) = width := Nat.mod_add_div width 8
  have high : ofNat (width % 8) (word >>> UInt64.ofNat (8 * (width / 8))).toUInt8.toNat =
      ofNat (width % 8) (word.toNat / 2 ^ (8 * (width / 8))) := by
    by_cases full : width / 8 = 8
    · have none : width % 8 = 0 := by omega
      rw [none]
      rfl
    · exact ofNat_shift (by omega) (by omega) word
  rw [putWord, bits_putBytes whole, bits_put, high, List.append_assoc, ← ofNat_add, parts]

/-- The packed bytes hold what was written, and fewer than eight zeros behind it. -/
theorem unpack_finish (buffer : BitBuffer) :
    unpack buffer.finish = buffer.bits ++ List.replicate ((8 - buffer.count) % 8) false := by
  have lt := buffer.count_lt
  unfold finish
  split
  · next whole => simp [bits, whole, ofNat]
  · next part =>
    have padded := ofNat_append buffer.count (8 - buffer.count) buffer.pending 0
    have scaled : scale (8 - buffer.count) = 2 ^ (8 - buffer.count) := scale_eq (by omega)
    rw [Nat.zero_mod, Nat.add_zero, ofNat_zero, Nat.add_sub_cancel' (by omega)] at padded
    rw [List.reverse_cons, unpack_concat, ofNat_byte, scaled, padded, bits, List.append_assoc,
      Nat.mod_eq_of_lt (by omega)]

theorem length_finish (buffer : BitBuffer) : buffer.finish.length = buffer.byteCount := by
  have lt := buffer.count_lt
  unfold finish byteCount bitCount Bits.byteCount
  split
  · rw [List.length_reverse]
    omega
  · rw [List.length_reverse, List.length_cons]
    omega

end BitBuffer

namespace BitStream

@[simp] theorem length_bits (stream : BitStream) : stream.bits.length = stream.length := by
  simp [bits, length]

theorem isEmpty_iff (stream : BitStream) : stream.isEmpty = true ↔ stream.length = 0 := by
  simp only [isEmpty, length, Bool.and_eq_true, beq_iff_eq, List.isEmpty_iff,
    ← List.length_eq_zero_iff]
  omega

@[simp] theorem bits_ofPacket (packet : Packet) : (ofPacket packet).bits = unpack packet := by
  simp [ofPacket, bits, ofNat]

/-- The stream is what is left of `packet` from bit `position` on, which is not past its end. -/
structure StandsAt (packet : Packet) (position : Nat) (stream : BitStream) : Prop where
  inside : position ≤ 8 * packet.length
  ahead : stream.bits = (unpack packet).drop position

namespace StandsAt

variable {packet : Packet} {position : Nat} {stream : BitStream}

theorem length_add (h : stream.StandsAt packet position) :
    stream.length + position = 8 * packet.length := by
  have length := congrArg List.length h.ahead
  rw [length_bits, List.length_drop, length_unpack] at length
  have := h.inside
  omega

theorem skip (h : stream.StandsAt packet position) {count : Nat} {left : BitStream}
    (enough : count ≤ stream.length) (dropped : left.bits = stream.bits.drop count) :
    left.StandsAt packet (position + count) where
  inside := by
    have := h.length_add
    omega
  ahead := by rw [dropped, h.ahead, List.drop_drop]

end StandsAt

theorem takeFrom_of_le {width count : Nat} (value current : Nat) (fits : count ≤ 8)
    (bytes : Packet) (inside : width ≤ count) :
    takeFrom width value count current fits bytes =
      some (value * scale width + (current % scale count) >>> (count - width),
        ⟨count - width, current, bytes, Nat.le_trans (Nat.sub_le _ _) fits⟩) := by
  delta takeFrom
  cases bytes <;> exact if_pos inside

theorem takeFrom_nil {width count : Nat} (value current : Nat) (fits : count ≤ 8)
    (beyond : ¬ width ≤ count) : takeFrom width value count current fits [] = none := by
  delta takeFrom
  exact if_neg beyond

theorem takeFrom_cons {width count : Nat} (value current : Nat) (fits : count ≤ 8) (byte : UInt8)
    (bytes : Packet) (beyond : ¬ width ≤ count) :
    takeFrom width value count current fits (byte :: bytes) =
      takeFrom (width - count) (value * scale count + current % scale count) 8 byte.toNat
        (Nat.le_refl 8) bytes := by
  delta takeFrom
  exact if_neg beyond

/-- Bits that the current byte still has. -/
theorem takeFrom_inside {width count : Nat} (value current : Nat) (fits : count ≤ 8)
    (bytes : Packet) (inside : width ≤ count) : ∃ rest,
      takeFrom width value count current fits bytes =
        some (value * 2 ^ width + toNat ((ofNat count current ++ unpack bytes).take width), rest) ∧
      rest.bits = (ofNat count current ++ unpack bytes).drop width := by
  obtain ⟨left, rfl⟩ := Nat.exists_eq_add_of_le inside
  have whole : scale (width + left) = 2 ^ (width + left) := scale_eq fits
  have part : scale width = 2 ^ width := scale_eq (by omega)
  have high : current % 2 ^ (width + left) / 2 ^ left = current / 2 ^ left % 2 ^ width := by
    rw [Nat.add_comm, Nat.pow_add, Nat.mod_mul_right_div_self]
  rw [takeFrom_of_le _ _ _ _ inside, whole, part, ofNat_add, List.append_assoc,
    List.take_left' (length_ofNat _ _), List.drop_left' (length_ofNat _ _), toNat_ofNat]
  refine ⟨⟨left, current, bytes, by omega⟩, ?_, rfl⟩
  simp only [Nat.add_sub_cancel_left, Nat.shiftRight_eq_div_pow, high]

/-- What is taken from a stream is the number that its first bits make. -/
theorem takeFrom_eq {width count : Nat} (value current : Nat) (fits : count ≤ 8) (bytes : Packet)
    (enough : width ≤ count + 8 * bytes.length) : ∃ rest,
      takeFrom width value count current fits bytes =
        some (value * 2 ^ width + toNat ((ofNat count current ++ unpack bytes).take width), rest) ∧
      rest.bits = (ofNat count current ++ unpack bytes).drop width := by
  -- Over the bytes: a current byte that is too short gives all it has, and the next one goes on.
  induction bytes generalizing width value count current with
  | nil => exact takeFrom_inside value current fits [] (by simpa using enough)
  | cons byte bytes ih =>
    by_cases inside : width ≤ count
    · exact takeFrom_inside value current fits (byte :: bytes) inside
    · obtain ⟨left, rfl⟩ := Nat.exists_eq_add_of_le (Nat.le_of_not_le inside)
      have more : left ≤ 8 + 8 * bytes.length := by
        rw [List.length_cons] at enough
        omega
      have scaled : scale count = 2 ^ count := scale_eq fits
      obtain ⟨rest, taken, dropped⟩ :=
        ih (value * 2 ^ count + current % 2 ^ count) byte.toNat (by decide) more
      rw [← unpack_cons] at taken dropped
      have length : ((unpack (byte :: bytes)).take left).length = left := by
        rw [List.length_take, length_unpack, List.length_cons]
        omega
      have here : (ofNat count current).length = count := length_ofNat _ _
      have first : (ofNat count current ++ unpack (byte :: bytes)).take (count + left) =
          ofNat count current ++ (unpack (byte :: bytes)).take left := by
        rw [List.take_append, here, List.take_of_length_le (by omega), Nat.add_sub_cancel_left]
      have behind : (ofNat count current ++ unpack (byte :: bytes)).drop (count + left) =
          (unpack (byte :: bytes)).drop left := by
        rw [List.drop_append, here, List.drop_eq_nil_of_le (by omega), Nat.add_sub_cancel_left,
          List.nil_append]
      refine ⟨rest, ?_, by rw [dropped, behind]⟩
      rw [takeFrom_cons _ _ _ _ _ inside, Nat.add_sub_cancel_left, scaled]
      simp only [taken, first, toNat_append, toNat_ofNat, length]
      congr 2
      ring

/-- As many bits as are left can be taken, and no more. -/
theorem take?_eq {width : Nat} {stream : BitStream} (enough : width ≤ stream.length) : ∃ rest,
    stream.take? width = some (toNat (stream.bits.take width), rest) ∧
      rest.bits = stream.bits.drop width := by
  obtain ⟨rest, taken, dropped⟩ :=
    takeFrom_eq 0 stream.current stream.count_le stream.bytes enough
  rw [Nat.zero_mul, Nat.zero_add] at taken
  exact ⟨rest, taken, dropped⟩

/-- A number that stands at the front of a stream is taken from it. -/
theorem take?_ofNat {width value : Nat} {stream : BitStream} {rest : Bits}
    (front : stream.bits = ofNat width value ++ rest) (fits : value < 2 ^ width) : ∃ left,
    stream.take? width = some (value, left) ∧ left.bits = rest := by
  have enough : width ≤ stream.length := by
    rw [← length_bits, front, List.length_append, length_ofNat]
    omega
  obtain ⟨left, taken, dropped⟩ := take?_eq enough
  rw [front, List.take_left' (length_ofNat _ _), toNat_ofNat, Nat.mod_eq_of_lt fits] at taken
  rw [front, List.drop_left' (length_ofNat _ _)] at dropped
  exact ⟨left, taken, dropped⟩

end BitStream

end AreaReplication
