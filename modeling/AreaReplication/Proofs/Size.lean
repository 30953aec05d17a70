import AreaReplication.Message.Size
import AreaReplication.Proofs.RoundTrip
import Mathlib.Algebra.Order.BigOperators.Group.List

/-!
# Sizes of written forms

The estimates count every bit of a written form. They are exact but for the counts of frames and
states, for which they reserve the longest form.
-/
namespace AreaReplication

open Bits

namespace Varint

theorem significantBits_pos {value : Nat} (h : 0 < value) :
    significantBits value = significantBits (value / 2) + 1 := by
  rw [significantBits, if_neg (Nat.ne_of_gt h)]

theorem significantBits_le {width value : Nat} (h : value < 2 ^ width) :
    significantBits value ≤ width := by
  induction width generalizing value with
  | zero =>
    obtain rfl : value = 0 := by omega
    rw [significantBits, if_pos rfl]
  | succ width ih =>
    rcases Nat.eq_zero_or_pos value with rfl | positive
    · rw [significantBits, if_pos rfl]
      exact Nat.zero_le _
    · rw [significantBits_pos positive]
      exact Nat.succ_le_succ (ih (by omega))

/-- A group has seven of the bits. -/
theorem significantBits_group {value : Nat} (h : groupBase ≤ value) :
    significantBits value = significantBits (value / groupBase) + groupBits := by
  unfold groupBase at *
  rw [significantBits_pos (by omega), significantBits_pos (by omega),
    significantBits_pos (by omega), significantBits_pos (by omega), significantBits_pos (by omega),
    significantBits_pos (by omega), significantBits_pos (by omega)]
  simp only [Nat.div_div_eq_div_mul]
  rfl

theorem size_of_lt {value : Nat} (h : value < groupBase) : size value = 8 := by
  have few : significantBits value ≤ 7 := significantBits_le h
  unfold size groupBits
  omega

theorem size_of_le {value : Nat} (h : groupBase ≤ value) :
    size value = size (value / groupBase) + 8 := by
  have more : 0 < value / groupBase := Nat.div_pos h (by decide)
  have bits := significantBits_pos more
  unfold size
  rw [significantBits_group h]
  unfold groupBits
  omega

@[simp] theorem length_form (value : Nat) : (form value).length = size value := by
  fun_induction form value with
  | case1 value last => rw [length_ofNat, size_of_lt last]
  | case2 value more ih =>
    rw [List.length_append, length_ofNat, ih, size_of_le (Nat.not_lt.1 more), Nat.add_comm]

theorem size_le {groups value : Nat} (h : value < groupBase ^ (groups + 1)) :
    size value ≤ 8 * (groups + 1) := by
  induction groups generalizing value with
  | zero =>
    have last : value < groupBase := by simpa using h
    exact Nat.le_of_eq (size_of_lt last)
  | succ groups ih =>
    by_cases last : value < groupBase
    · rw [size_of_lt last]
      omega
    · have high : value / groupBase < groupBase ^ (groups + 1) := by
        rw [Nat.div_lt_iff_lt_mul (by decide), ← Nat.pow_succ]
        exact h
      rw [size_of_le (Nat.not_lt.1 last)]
      have := ih high
      omega

theorem le_size (value : Nat) : 8 ≤ size value := by
  unfold size groupBits
  omega

theorem size_word_le (value : UInt64) : size value.toNat ≤ 80 := by
  have few : value.toNat < groupBase ^ (9 + 1) := Nat.lt_trans value.toNat_lt (by decide)
  exact size_le few

/-- No time has a longer form than the last one. -/
theorem size_time_le (time : Time) : size time.toNat ≤ size Time.last.toNat := by
  have long : size Time.last.toNat = 80 := by decide +kernel
  rw [long]
  exact size_word_le time

/-- The form of a count fits the field reserved for it. -/
theorem size_count_le {count : Nat} (h : count < Message.countBound) :
    size count ≤ countFieldBits := by
  have few : count < groupBase ^ (4 + 1) := Nat.lt_trans h (by decide)
  exact size_le few

theorem size_zigzag_le (value : Int32) : size (zigzag value) ≤ 40 :=
  size_count_le (zigzag_lt value)

/-- The next number has at most one group more. -/
theorem size_succ_le (value : Nat) : size (value + 1) ≤ size value + 8 := by
  have base : groupBase = 128 := rfl
  induction value using Nat.strongRecOn with
  | ind value ih =>
    by_cases small : value + 1 < groupBase
    · rw [size_of_lt small]
      omega
    · have more := size_of_le (Nat.not_lt.1 small)
      by_cases last : value < groupBase
      · have one : (value + 1) / groupBase = 1 := by rw [base] at *; omega
        rw [more, one, size_of_lt last, size_of_lt (by decide : 1 < groupBase)]
      · rw [more, size_of_le (Nat.not_lt.1 last)]
        have step : (value + 1) / groupBase = value / groupBase ∨
            (value + 1) / groupBase = value / groupBase + 1 := by rw [base]; omega
        rcases step with same | next
        · rw [same]
          omega
        · rw [next]
          have := ih (value / groupBase) (by rw [base] at *; omega)
          omega

end Varint

@[simp] theorem sumBits_eq {α : Type} (size : α → Nat) (parts : List α) :
    sumBits size parts = (parts.map size).sum := by
  rw [sumBits, List.sum_eq_foldl, List.foldl_map]

theorem frameHeaderBits_le (time : Time) (center : Option Zone) :
    frameHeaderBits time center ≤ 241 := by
  have stamp := Varint.size_word_le time
  have zone : (center.map Zone.bitCount).getD 0 ≤ 120 := by
    cases center with
    | none => exact Nat.zero_le _
    | some zone =>
      have x := Varint.size_zigzag_le zone.x
      have y := Varint.size_zigzag_le zone.y
      have z := Varint.size_zigzag_le zone.z
      simp only [Option.map_some, Option.getD_some, Zone.bitCount]
      omega
  unfold frameHeaderBits countFieldBits
  omega

theorem optionalBits_le {α : Type} {size : α → Nat} {most : Nat} (h : ∀ value, size value ≤ most)
    (value : Option α) : optionalBits size value ≤ 1 + most := by
  cases value with
  | none => exact Nat.add_le_add_left (Nat.zero_le _) 1
  | some value => exact Nat.add_le_add_left (h value) 1

theorem Delta.bitCount_le (delta : Delta) : delta.bitCount ≤ 774 := by
  have id := Varint.size_count_le delta.netId.toNat_lt
  have version := Varint.size_word_le delta.version
  have baseline :=
    optionalBits_le (fun version : Version => Varint.size_word_le version) delta.baseline
  have entity := optionalBits_le (fun entity : EntityId => Varint.size_word_le entity) delta.entity
  have zoneId := optionalBits_le (fun zoneId : UInt32 => Varint.size_count_le zoneId.toNat_lt)
    delta.zoneId
  have position := optionalBits_le (fun _ => Nat.le_refl (3 * 64)) delta.position
  have rotation := optionalBits_le (fun _ => Nat.le_refl (4 * 64)) delta.rotation
  unfold countFieldBits at *
  unfold bitCount
  omega

def echoBits (echoed : List MessageId) : Nat :=
  (echoed.map fun ack => Varint.size ack.toNat).sum

theorem echoBits_le (echoed : List MessageId) : echoBits echoed ≤ 80 * echoed.length := by
  have acks : (echoed.map fun ack => Varint.size ack.toNat).sum ≤
      (echoed.map fun ack => Varint.size ack.toNat).length • 80 := by
    refine List.sum_le_card_nsmul _ _ fun bits hb => ?_
    obtain ⟨ack, -, rfl⟩ := List.mem_map.1 hb
    exact Varint.size_word_le ack
  rw [List.length_map, Nat.nsmul_eq_mul, Nat.mul_comm] at acks
  exact acks

/-- The count of a few echoes takes no more than that of none. -/
theorem messageHeaderBits_echoes (id : MessageId) (sentAt : Time) {echoed : List MessageId}
    (few : echoed.length < Varint.groupBase) :
    messageHeaderBits id sentAt echoed = messageHeaderBits id sentAt [] + echoBits echoed := by
  have count : Varint.size echoed.length = 8 := Varint.size_of_lt few
  have none : Varint.size 0 = 8 := Varint.size_of_lt (by decide)
  simp only [messageHeaderBits, sumBits_eq, echoBits, List.length_nil, List.map_nil, List.sum_nil,
    count, none]
  omega

theorem le_messageHeaderBits (id : MessageId) (echoed : List MessageId) :
    messageHeaderBits id Time.last [] ≤ messageHeaderBits id Time.last echoed ∧
      144 ≤ messageHeaderBits id Time.last echoed := by
  have none : Varint.size 0 = 8 := Varint.size_of_lt (by decide)
  have stamp : Varint.size Time.last.toNat = 80 := by decide +kernel
  have number := Varint.le_size id.toNat
  have count := Varint.le_size echoed.length
  simp only [messageHeaderBits, countFieldBits, sumBits_eq, List.length_nil, List.map_nil,
    List.sum_nil, none, stamp]
  omega

theorem le_frameHeaderBits (time : Time) (center : Option Zone) :
    49 ≤ frameHeaderBits time center := by
  have stamp := Varint.le_size time.toNat
  unfold frameHeaderBits countFieldBits
  omega

theorem Delta.le_bitCount (delta : Delta) : 22 ≤ delta.bitCount := by
  have id := Varint.le_size delta.netId.toNat
  have version := Varint.le_size delta.version.toNat
  unfold bitCount optionalBits
  omega

/-- The states of a frame take their share of its estimate. -/
theorem Frame.le_bitCount (frame : Frame) : 49 + 22 * frame.states.length ≤ frame.bitCount := by
  have header := le_frameHeaderBits frame.time frame.center
  have states : (frame.states.map Delta.bitCount).length • 22 ≤
      (frame.states.map Delta.bitCount).sum := by
    refine List.card_nsmul_le_sum _ _ fun bits hb => ?_
    obtain ⟨state, -, rfl⟩ := List.mem_map.1 hb
    exact state.le_bitCount
  rw [List.length_map, Nat.nsmul_eq_mul] at states
  rw [bitCount, sumBits_eq]
  omega

section Length

theorem length_optionalForm {α : Type} {form : α → Bits} {size : α → Nat}
    (h : ∀ value, (form value).length = size value) (value : Option α) :
    (optionalForm form value).length = optionalBits size value := by
  cases value with
  | none => rfl
  | some value =>
    rw [optionalForm, optionalBits, List.length_append, h]
    rfl

@[simp] theorem Zone.length_form (zone : Zone) : zone.form.length = zone.bitCount := by
  simp only [form, bitCount, List.length_append, Varint.length_form]
  omega

/-- The size of a state is exact. -/
theorem Delta.length_form (delta : Delta) : delta.form.length = delta.bitCount := by
  have baseline : (optionalForm (fun version => Varint.form version.toNat) delta.baseline).length =
      optionalBits (fun version => Varint.size version.toNat) delta.baseline :=
    length_optionalForm (fun _ => Varint.length_form _) _
  have entity : (optionalForm (fun entity => Varint.form entity.toNat) delta.entity).length =
      optionalBits (fun entity => Varint.size entity.toNat) delta.entity :=
    length_optionalForm (fun _ => Varint.length_form _) _
  have zoneId : (optionalForm (fun zoneId => Varint.form zoneId.toNat) delta.zoneId).length =
      optionalBits (fun zoneId => Varint.size zoneId.toNat) delta.zoneId :=
    length_optionalForm (fun _ => Varint.length_form _) _
  have position : (optionalForm Vec3.form delta.position).length =
      optionalBits (fun _ => 3 * 64) delta.position :=
    length_optionalForm (fun v => by simp [Vec3.form, Vec3.toList, Binary64.form]) _
  have rotation : (optionalForm Quat.form delta.rotation).length =
      optionalBits (fun _ => 4 * 64) delta.rotation :=
    length_optionalForm (fun q => by simp [Quat.form, Quat.toList, Binary64.form]) _
  simp only [form, bitCount, List.length_append, Varint.length_form, List.length_singleton,
    baseline, entity, zoneId, position, rotation]
  omega

/-- The estimate of a frame has the longest count in place of its own. -/
theorem Frame.length_form (frame : Frame) : frame.form.length + countFieldBits =
    frame.bitCount + Varint.size frame.states.length := by
  have center : (optionalForm Zone.form frame.center).length =
      1 + (frame.center.map Zone.bitCount).getD 0 :=
    length_optionalForm Zone.length_form frame.center
  have states : (frame.states.flatMap Delta.form).length =
      (frame.states.map Delta.bitCount).sum := by
    rw [List.length_flatMap]
    simp only [Delta.length_form]
  simp only [form, bitCount, frameHeaderBits, sumBits_eq, List.length_append, Varint.length_form,
    center, states]
  omega

/-- The estimate of a message header has the longest count in place of its own. -/
theorem Message.length_form (message : Message) : message.form.length + countFieldBits =
    messageHeaderBits message.id message.sentAt message.echoed +
      Varint.size message.frames.length +
      (message.frames.map fun frame => frame.form.length).sum := by
  have kind : MessageKind.frames.form.length = 8 := rfl
  have echoed : (message.echoed.flatMap fun id => Varint.form id.toNat).length =
      (message.echoed.map fun id => Varint.size id.toNat).sum := by
    rw [List.length_flatMap]
    simp only [Varint.length_form]
  simp only [form, messageHeaderBits, sumBits_eq, List.length_append, Varint.length_form, kind,
    echoed, List.length_flatMap]
  omega

end Length

namespace Message

variable {message : Message}

/-- What a message is expected to take, with the longest time stamp and counts. -/
def estimate (message : Message) : Nat :=
  messageHeaderBits message.id Time.last message.echoed +
    (message.frames.map Frame.bitCount).sum

theorem header_le (message : Message) :
    messageHeaderBits message.id message.sentAt message.echoed ≤
      messageHeaderBits message.id Time.last message.echoed := by
  have := Varint.size_time_le message.sentAt
  simp only [messageHeaderBits]
  omega

theorem le_estimate_frames (message : Message) :
    144 + 49 * message.frames.length ≤ message.estimate := by
  have header := (le_messageHeaderBits message.id message.echoed).2
  have frames : (message.frames.map Frame.bitCount).length • 49 ≤
      (message.frames.map Frame.bitCount).sum := by
    refine List.card_nsmul_le_sum _ _ fun bits hb => ?_
    obtain ⟨frame, -, rfl⟩ := List.mem_map.1 hb
    exact Nat.le_trans (Nat.le_add_right _ _) frame.le_bitCount
  rw [List.length_map, Nat.nsmul_eq_mul] at frames
  unfold estimate
  omega

theorem le_estimate_states {frame : Frame} (held : frame ∈ message.frames) :
    22 * frame.states.length ≤ message.estimate := by
  have share := frame.le_bitCount
  have part : frame.bitCount ≤ (message.frames.map Frame.bitCount).sum :=
    List.le_sum_of_mem (List.mem_map_of_mem held)
  unfold estimate
  omega

/-- No message whose counts can be stated takes more than its estimate. -/
theorem length_form_le (small : ∀ count ∈ message.counts, count.2 < countBound) :
    message.form.length ≤ message.estimate := by
  obtain ⟨-, few, each⟩ := forall_mem_counts.1 small
  have header := message.header_le
  have count : Varint.size message.frames.length ≤ countFieldBits := Varint.size_count_le few
  have frames : (message.frames.map fun frame => frame.form.length).sum ≤
      (message.frames.map Frame.bitCount).sum := by
    refine List.sum_le_sum fun frame hf => ?_
    have count : Varint.size frame.states.length ≤ countFieldBits :=
      Varint.size_count_le (each frame hf)
    have exact := frame.length_form
    omega
  have exact := message.length_form
  unfold estimate
  omega

/-- A message of a single state leaves most of the two counts unused. -/
theorem length_form_single {frame : Frame} {state : Delta} (frames : message.frames = [frame])
    (states : frame.states = [state]) : message.form.length + 64 ≤ message.estimate := by
  have header := message.header_le
  have one : Varint.size 1 = 8 := Varint.size_of_lt (by decide)
  have inner := frame.length_form
  have outer := message.length_form
  simp only [frames, List.length_singleton, List.map_cons, List.map_nil, List.sum_cons,
    List.sum_nil, one] at outer
  rw [states, List.length_singleton, one] at inner
  simp only [estimate, frames, List.map_cons, List.map_nil, List.sum_cons, List.sum_nil]
  unfold countFieldBits at inner outer
  omega

/-- A packet has the bytes that the bits of its message fill. -/
theorem length_packet {packet : Packet} (encoded : message.encode = .ok packet) :
    packet.length = byteCount message.form.length := by
  obtain ⟨-, rfl⟩ := encode_eq_ok_iff.1 encoded
  have written := message.emits {}
  have empty : (BitBuffer.bits {}) = [] := rfl
  rw [BitBuffer.length_finish, BitBuffer.byteCount, ← BitBuffer.length_bits, written, empty,
    List.nil_append]

end Message

end AreaReplication
