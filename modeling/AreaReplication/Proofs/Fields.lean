import AreaReplication.Bits.Field
import AreaReplication.Proofs.Layout

/-!
# Fields are read back

A buffer takes fields of any layout one after the other, starting anywhere in a byte, and refuses a
word that its width cannot hold. The fields that it took are read back from its bytes, up to the bit
behind the last of them; only the zeros that fill up the last byte are left.
-/
namespace AreaReplication

open Bits

namespace Field

def Fits : Field → Prop
  | word value width => width ≤ 64 ∧ value.toNat < 2 ^ width
  | _ => True

instance : DecidablePred Fits
  | word value width => inferInstanceAs (Decidable (width ≤ 64 ∧ value.toNat < 2 ^ width))
  | flag _ | varu32 _ | varu64 _ | vars32 _ | double _ => .isTrue trivial

theorem fault?_eq_none_iff {field : Field} : field.fault? = none ↔ field.Fits := by
  cases field with
  | word value width =>
    simp only [fault?, Fits]
    by_cases wide : maxFieldWidth < width
    · rw [if_pos wide]
      have beyond : ¬ width ≤ 64 := Nat.not_le.2 wide
      simp [beyond]
    · rw [if_neg wide]
      have narrow : width ≤ 64 := Nat.not_lt.1 wide
      by_cases large : Nat.pow 2 width ≤ value.toNat
      · rw [if_pos large]
        have beyond : ¬ value.toNat < 2 ^ width := Nat.not_lt.2 large
        simp [beyond]
      · rw [if_neg large]
        exact ⟨fun _ => ⟨narrow, Nat.not_le.1 large⟩, fun _ => rfl⟩
  | flag | varu32 | varu64 | vars32 | double => exact ⟨fun _ => trivial, fun _ => rfl⟩

def form : Field → Bits
  | flag value => [value]
  | word value width => ofNat width value.toNat
  | varu32 value => Varint.form value.toNat
  | varu64 value => Varint.form value.toNat
  | vars32 value => Varint.form (Varint.zigzag value)
  | double value => value.form

theorem emits {field : Field} (fits : field.Fits) : Emits field.write field.form := by
  cases field with
  | flag value => exact .flag value
  | word value width => exact BitBuffer.bits_putWord fits.1 value
  | varu32 value => exact Varint.emits value.toNat
  | varu64 value => exact Varint.emits value.toNat
  | vars32 value => exact Varint.emits (Varint.zigzag value)
  | double value => exact .double value

theorem reads {field : Field} (fits : field.Fits) : Reads field.layout.read field.form field := by
  cases field with
  | flag value => exact (Reads.bit value).map
  | word value width =>
    have number := (Reads.bits fits.1 fits.2).map (f := fun n => word (UInt64.ofNat n) width)
    rwa [UInt64.ofNat_toNat] at number
  | varu32 value => exact (Reads.varu32 value).map
  | varu64 value => exact (Reads.varu64 value).map
  | vars32 value => exact (Reads.vars32 value).map
  | double value => exact (Reads.double value).map

theorem reads_all {fields : List Field} (fits : ∀ field ∈ fields, field.Fits) :
    Reads ((fields.map layout).mapM Layout.read) (fields.flatMap form) fields := by
  induction fields with
  | nil => exact .pure []
  | cons field rest ih =>
    rw [List.forall_mem_cons] at fits
    rw [List.map_cons, List.mapM_cons, List.flatMap_cons]
    exact (reads fits.1).bind (ih fits.2).map

end Field

namespace BitBuffer

def appendAll (buffer : BitBuffer) (fields : List Field) : BitBuffer :=
  fields.foldl (fun buffer field => (buffer.append field).2) buffer

variable {field : Field} (buffer : BitBuffer)

theorem append_of_fits (fits : field.Fits) :
    buffer.append field = (.ok (), field.write buffer) := by
  rw [append, Field.fault?_eq_none_iff.2 fits]

theorem append_of_not_fits (unfit : ¬ field.Fits) :
    ∃ fault, buffer.append field = (.error fault, buffer) := by
  obtain ⟨fault, refused⟩ := Option.ne_none_iff_exists'.1 (mt Field.fault?_eq_none_iff.1 unfit)
  exact ⟨fault, by rw [append, refused]⟩

theorem append_ok_iff : (buffer.append field).1 = .ok () ↔ field.Fits := by
  by_cases fits : field.Fits
  · simp [append_of_fits buffer fits, fits]
  · obtain ⟨fault, refused⟩ := append_of_not_fits buffer fits
    simp [refused, fits]

theorem bits_appendAll (fields : List Field) : (buffer.appendAll fields).bits =
    buffer.bits ++ (fields.filter fun field => field.Fits).flatMap Field.form := by
  induction fields generalizing buffer with
  | nil => exact (List.append_nil _).symm
  | cons field rest ih =>
    rw [appendAll, List.foldl_cons, ← appendAll, ih]
    by_cases fits : field.Fits
    · rw [append_of_fits buffer fits, Field.emits fits, List.filter_cons_of_pos (by simp [fits]),
        List.flatMap_cons, List.append_assoc]
    · obtain ⟨fault, refused⟩ := append_of_not_fits buffer fits
      rw [refused, List.filter_cons_of_neg (by simp [fits])]

end BitBuffer

/-- A field is taken exactly if its width holds its value, and a refused one leaves the buffer as it
was. The bytes of a buffer hold its bits rounded up, and the fields that it took are read back from
them, each by its own reader, to the last bit written. -/
theorem written_fields_read_back (fields : List Field) :
    let buffer := BitBuffer.appendAll {} fields
    let taken := fields.filter fun field => field.Fits
    (∀ (before : BitBuffer) (field : Field),
      ((before.append field).1 = .ok () ↔ field.Fits) ∧
        (¬ field.Fits → (before.append field).2 = before)) ∧
    buffer.finish.length = (buffer.bitCount + 7) / 8 ∧
    ∃ left, (taken.map Field.layout).mapM Layout.read (.ofPacket buffer.finish) = .ok taken left ∧
      left.StandsAt buffer.finish buffer.bitCount ∧
      ∃ padding < 8, left.bits = List.replicate padding false := by
  intro buffer taken
  refine ⟨?_, buffer.length_finish, ?_⟩
  · intro before field
    refine ⟨before.append_ok_iff, fun unfit => ?_⟩
    obtain ⟨fault, refused⟩ := before.append_of_not_fits unfit
    rw [refused]
  · have empty : (BitBuffer.bits {}) = [] := rfl
    have written : buffer.bits = taken.flatMap Field.form := by
      rw [BitBuffer.bits_appendAll, empty, List.nil_append]
    have held := buffer.unpack_finish
    have fits : ∀ field ∈ taken, field.Fits := by
      intro field hf
      exact of_decide_eq_true (List.mem_filter.1 hf).2
    have front : (BitStream.ofPacket buffer.finish).bits =
        taken.flatMap Field.form ++ List.replicate ((8 - buffer.count) % 8) false := by
      rw [BitStream.bits_ofPacket, held, written]
    obtain ⟨left, answer, behind⟩ := Field.reads_all fits _ _ front
    refine ⟨left, answer, ⟨?_, ?_⟩, _, Nat.mod_lt _ (by decide), behind⟩
    · rw [← length_unpack, held, List.length_append, BitBuffer.length_bits]
      exact Nat.le_add_right _ _
    · rw [held, List.drop_left' buffer.length_bits, behind]

end AreaReplication
