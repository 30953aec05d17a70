import AreaReplication.Proofs.Layout

/-!
# Messages are read back as they were written

A message whose counts can be stated is written, and a receiver whose limits admit it reads the same
message from the bytes, whatever its numbers, fields and floating-point words are. So is an
acknowledgment.
-/
namespace AreaReplication

namespace Reads

theorem echoed (ids : List MessageId) :
    Reads (Reader.mapError DecodeError.malformed (Reader.count Reader.varu64 ids.length))
      (ids.flatMap fun id => Varint.form id.toNat) ids :=
  (count fun id _ => varu64 id).mapError DecodeError.malformed

end Reads

theorem Reader.run_eq_ok_iff {ε α : Type} {read : Reader ε α} {packet : Packet} {value : α} :
    read.run packet = .ok value ↔ ∃ left, read (.ofPacket packet) = .ok value left := by
  unfold run
  split
  · next answer left run => simp [run]
  · next error left run => simp [run]

/-- Every count of the message has a written form, and the receiver takes it. -/
def Limits.Admits (limits : Limits) (message : Message) : Prop :=
  ∀ count ∈ message.counts, count.2 < Message.countBound ∧ count.2 ≤ limits.get count.1

namespace Message

variable {message : Message} {limits : Limits}

/-- The counts of a message are those of its header and one for each frame. -/
theorem forall_mem_counts {good : Bound × Nat → Prop} : (∀ count ∈ message.counts, good count) ↔
    good (.acksPerHeader, message.echoed.length) ∧
      good (.framesPerMessage, message.frames.length) ∧
      ∀ frame ∈ message.frames, good (.statesPerFrame, frame.states.length) := by
  simp [counts]

/-- A message is written exactly if all its counts can be stated. -/
theorem encode_eq_ok_iff {packet : Packet} : message.encode = .ok packet ↔
    (∀ count ∈ message.counts, count.2 < countBound) ∧ packet = (message.write {}).finish := by
  unfold encode
  cases found : message.counts.find? fun count => countBound ≤ count.2 with
  | none =>
    have small : ∀ count ∈ message.counts, count.2 < countBound := by simpa using found
    simp only [Except.ok.injEq]
    exact ⟨fun h => ⟨small, h.symm⟩, fun h => h.2.symm⟩
  | some count =>
    have large : countBound ≤ count.2 := by simpa using List.find?_some found
    have mem := List.mem_of_find?_eq_some found
    constructor
    · intro h
      cases h
    · intro h
      exact absurd (h.1 count mem) (Nat.not_lt.2 large)

theorem reads (admits : limits.Admits message) :
    ReadsAll (Reader.message limits) message.form message := by
  obtain ⟨acks, frames, each⟩ := forall_mem_counts.1 admits
  have states : ∀ frame ∈ message.frames, Reads (Reader.frame limits) frame.form frame := by
    intro frame hf
    obtain ⟨small, within⟩ := each frame hf
    exact .frame small within
  rw [form, ← List.append_nil (message.frames.flatMap Frame.form)]
  exact (Reads.expectKind .frames).bindAll <| (Reads.varu64 message.id).lift.bindAll <|
    (Reads.varu64 message.sentAt).lift.bindAll <| (Reads.countWithin acks.1 acks.2).bindAll <|
    (Reads.echoed message.echoed).bindAll <| (Reads.countWithin frames.1 frames.2).bindAll <|
    (Reads.count states).bindAll (.finish message)

theorem decode_of_le {packet : Packet} (h : packet.length ≤ limits.messageBytes) :
    decode limits packet = (Reader.message limits).run packet := by
  rw [decode, Limits.check_of_le h]

theorem decode_of_lt {packet : Packet} (h : limits.messageBytes < packet.length) :
    decode limits packet =
      .error (.limitExceeded .messageBytes limits.messageBytes packet.length) := by
  rw [decode, Limits.check_of_lt h]
  rfl

theorem decode_eq_ok_iff {packet : Packet} : decode limits packet = .ok message ↔
    packet.length ≤ limits.messageBytes ∧ (Reader.message limits).run packet = .ok message := by
  by_cases short : packet.length ≤ limits.messageBytes
  · rw [decode_of_le short, and_iff_right short]
  · rw [decode_of_lt (Nat.not_le.1 short)]
    constructor
    · intro h
      cases h
    · intro h
      exact absurd h.1 short

theorem run_encode (admits : limits.Admits message) {packet : Packet}
    (encoded : message.encode = .ok packet) : (Reader.message limits).run packet = .ok message := by
  obtain ⟨-, rfl⟩ := encode_eq_ok_iff.1 encoded
  exact (reads admits).run (Message.emits message)

/-- What is written for a message reads back as that message. -/
theorem decode_encode (admits : limits.Admits message) {packet : Packet}
    (encoded : message.encode = .ok packet) (size : packet.length ≤ limits.messageBytes) :
    Message.decode limits packet = .ok message :=
  decode_eq_ok_iff.2 ⟨size, run_encode admits encoded⟩

end Message

theorem Ack.decode_encode (id : MessageId) (sentAt receivedAt : Time) :
    Ack.decode (Ack.encode id sentAt) receivedAt = .ok ⟨id, sentAt, receivedAt⟩ := by
  have reads : ReadsAll (Reader.ack receivedAt) (Ack.form id sentAt) ⟨id, sentAt, receivedAt⟩ := by
    rw [Ack.form, ← List.append_nil (Varint.form sentAt.toNat)]
    exact (Reads.expectKind .ack).bindAll <| (Reads.varu64 id).lift.bindAll <|
      (Reads.varu64 sentAt).lift.bindAll (.finish _)
  exact reads.run (Ack.emits id sentAt)

/-- Every message whose counts a receiver admits is written, and the receiver reads it back from its
bytes if they are not too many; every acknowledgment reads back with the time of its arrival. -/
theorem written_messages_read_back :
    (∀ (message : Message) (limits : Limits), limits.Admits message → ∃ packet,
      message.encode = .ok packet ∧
        (packet.length ≤ limits.messageBytes → Message.decode limits packet = .ok message)) ∧
    ∀ (id : MessageId) (sentAt receivedAt : Time),
      Ack.decode (Ack.encode id sentAt) receivedAt = .ok ⟨id, sentAt, receivedAt⟩ := by
  refine ⟨fun message limits admits => ?_, Ack.decode_encode⟩
  have encoded : message.encode = .ok (message.write {}).finish :=
    Message.encode_eq_ok_iff.2 ⟨fun count hc => (admits count hc).1, rfl⟩
  exact ⟨_, encoded, Message.decode_encode admits encoded⟩

/-- A message with the last number, two echoes and two frames: in the first an entity comes into
view at a position that is no number, in the second it leaves. -/
def farewell : Message where
  id := 0xffffffffffffffff
  sentAt := 128
  echoed := [127, 16384]
  frames :=
    [{ time := 300, center := some ⟨-2147483648, 2147483647, -1⟩
       states := [{ netId := 0xffffffff, version := 300, entity := some 7, zoneId := some 0,
                    position := some ⟨⟨0x7ff8000000000001⟩, .zero, .one⟩,
                    rotation := some .identity }] },
     { time := 301, states := [{ netId := 0xffffffff, version := 301, baseline := some 300,
                                 removed := true }] }]

theorem written_messages_read_back_farewell : Limits.small.Admits farewell ∧
    ∃ packet, farewell.encode = .ok packet ∧ Message.decode .small packet = .ok farewell := by
  have admits : Limits.small.Admits farewell := by
    unfold Limits.Admits
    decide
  obtain ⟨packet, encoded, read⟩ := written_messages_read_back.1 farewell .small admits
  have short : farewell.encode.toOption.all fun packet => packet.length ≤ 4096 := by
    decide +kernel
  rw [encoded] at short
  exact ⟨admits, packet, encoded, read (of_decide_eq_true short)⟩

end AreaReplication
