import AreaReplication.Proofs.Size

/-!
# Estimates and what is written

A message is written in exactly the bits of its estimate, but for what each of its counts leaves of
the field that is reserved for it.
-/
namespace AreaReplication

/-- A writer adds as many bits as its form has. -/
theorem Emits.bitCount {write : BitBuffer → BitBuffer} {form : Bits} (h : Emits write form)
    (buffer : BitBuffer) : (write buffer).bitCount = buffer.bitCount + form.length := by
  rw [← BitBuffer.length_bits, h, List.length_append, BitBuffer.length_bits]

namespace Varint

/-- The size told from the magnitude is what the groups take. -/
theorem bitCount_write (value : Nat) (buffer : BitBuffer) :
    (write value buffer).bitCount = buffer.bitCount + size value := by
  rw [(emits value).bitCount, length_form]

/-- What a count leaves of the field that is reserved for it. -/
def spare (count : Nat) : Nat := countFieldBits - size count

theorem size_add_spare {count : Nat} (h : count < Message.countBound) :
    size count + spare count = countFieldBits :=
  Nat.add_sub_cancel' (size_count_le h)

theorem spare_le {count : Nat} (h : count < Message.countBound) : spare count ≤ 32 := by
  have least := le_size count
  have total := size_add_spare h
  unfold countFieldBits at total
  omega

end Varint

open Varint (spare)

namespace Message

variable {message : Message}

/-- What a message comes to by the estimates of its header, its frames' headers and its states. -/
def reserved (message : Message) : Nat :=
  messageHeaderBits message.id message.sentAt message.echoed +
    (message.frames.map fun frame =>
      frameHeaderBits frame.time frame.center + (frame.states.map Delta.bitCount).sum).sum

/-- What the counts of a message leave of the fields that are reserved for them. -/
def unused (message : Message) : Nat :=
  spare message.frames.length +
    (message.frames.map fun frame => spare frame.states.length).sum

/-- A frame is its estimate, but for what its count leaves. -/
theorem frame_add_spare {frame : Frame} (h : frame.states.length < countBound) :
    frame.form.length + spare frame.states.length =
      frameHeaderBits frame.time frame.center + (frame.states.map Delta.bitCount).sum := by
  have exact := frame.length_form
  have total := Varint.size_add_spare h
  rw [Frame.bitCount, sumBits_eq] at exact
  omega

theorem form_add_unused (small : ∀ count ∈ message.counts, count.2 < countBound) :
    message.form.length + message.unused = message.reserved := by
  obtain ⟨-, few, each⟩ := forall_mem_counts.1 small
  have frames : (message.frames.map fun frame =>
      frame.form.length + spare frame.states.length).sum =
      (message.frames.map fun frame =>
        frameHeaderBits frame.time frame.center + (frame.states.map Delta.bitCount).sum).sum := by
    congr 1
    apply List.map_congr_left
    intro frame hf
    exact frame_add_spare (each frame hf)
  -- From the sum of each frame with its spare bits to the sum of both sums.
  rw [List.sum_map_add] at frames
  have exact := message.length_form
  have total : Varint.size message.frames.length + spare message.frames.length =
      countFieldBits := Varint.size_add_spare few
  unfold unused reserved
  omega

end Message

/-- A message whose counts can be stated is written in its estimated bits less those that its counts
leave unused, at most 32 for each count; its packet has the bytes that these bits fill. -/
theorem written_sizes_match_estimates (message : Message)
    (small : ∀ count ∈ message.counts, count.2 < Message.countBound) :
    (message.write {}).bitCount + message.unused = message.reserved ∧
    (∀ count ∈ message.frames.length :: message.frames.map (fun frame => frame.states.length),
      (Varint.write count {}).bitCount + spare count = 40 ∧ spare count ≤ 32) ∧
    (message.write {}).bitCount ≤ message.reserved ∧
    ∃ packet, message.encode = .ok packet ∧
      packet.length = Bits.byteCount (message.write {}).bitCount := by
  have written : (message.write {}).bitCount = message.form.length := by
    rw [message.emits.bitCount]
    exact Nat.zero_add _
  have total := Message.form_add_unused small
  rw [← written] at total
  refine ⟨total, ?_, ?_, ?_⟩
  · obtain ⟨-, few, each⟩ := Message.forall_mem_counts.1 small
    intro count hc
    have stated : count < Message.countBound := by
      rcases List.mem_cons.1 hc with rfl | inside
      · exact few
      · obtain ⟨frame, hf, rfl⟩ := List.mem_map.1 inside
        exact each frame hf
    have exact := Varint.size_add_spare stated
    refine ⟨?_, Varint.spare_le stated⟩
    rw [Varint.bitCount_write]
    exact (congrArg (· + spare count) (Nat.zero_add _)).trans exact
  · omega
  · have encoded : message.encode = .ok (message.write {}).finish :=
      Message.encode_eq_ok_iff.2 ⟨small, rfl⟩
    exact ⟨_, encoded, BitBuffer.length_finish _⟩

theorem written_sizes_match_estimates_farewell :
    (∀ count ∈ farewell.counts, count.2 < Message.countBound) ∧
    (farewell.write {}).bitCount + 96 = farewell.reserved ∧
    ∃ packet, farewell.encode = .ok packet ∧
      packet.length = Bits.byteCount (farewell.write {}).bitCount := by
  have small : ∀ count ∈ farewell.counts, count.2 < Message.countBound := by decide
  obtain ⟨exact, -, -, encoded⟩ := written_sizes_match_estimates farewell small
  have unused : farewell.unused = 96 := by decide +kernel
  rw [unused] at exact
  exact ⟨small, exact, encoded⟩

end AreaReplication
