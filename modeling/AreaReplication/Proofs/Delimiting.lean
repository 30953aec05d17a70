import AreaReplication.Proofs.Canonical

/-!
# Packets are neither cut nor extended

What a reader makes of a stream it also makes of a longer one, unless the stream ended too early. So
of a packet that is read, every shorter one ends too early, and every longer one leaves bytes over.
-/
namespace AreaReplication

open Bits

def BitError.IsShortage : BitError → Prop
  | .endOfInput requested available => available < requested
  | _ => False

def DecodeError.IsShortage : DecodeError → Prop
  | .malformed cause => cause.IsShortage
  | _ => False

theorem DecodeError.isShortage_iff {error : DecodeError} : error.IsShortage ↔
    ∃ requested available, available < requested ∧
      error = .malformed (.endOfInput requested available) := by
  constructor
  · intro h
    cases error with
    | malformed cause =>
      cases cause with
      | endOfInput requested available => exact ⟨requested, available, h, rfl⟩
      | _ => exact h.elim
    | _ => exact h.elim
  · rintro ⟨requested, available, h, rfl⟩
    exact h

theorem BitStream.take?_eq_none {width : Nat} {stream : BitStream} (h : stream.length < width) :
    stream.take? width = none := by
  cases taken : stream.take? width with
  | none => rfl
  | some result =>
    have := take?_length taken
    omega

/-- The answer to a stream, and that to a stream with `extra` behind it. -/
inductive Continues {ε α : Type} (short : ε → Prop) (extra : Bits) :
    EStateM.Result ε BitStream α → EStateM.Result ε BitStream α → Prop where
  | same {value left rest} (front : rest.bits = left.bits ++ extra) :
      Continues short extra (.ok value left) (.ok value rest)
  | failed {error left rest} : Continues short extra (.error error left) (.error error rest)
  | ended {error left answer} (early : short error) :
      Continues short extra (.error error left) answer

/-- What stands behind the bits that `read` consumes makes no difference to it. -/
def Local {ε α : Type} (short : ε → Prop) (read : Reader ε α) : Prop :=
  ∀ ⦃stream longer extra⦄, longer.bits = stream.bits ++ extra →
    Continues short extra (read stream) (read longer)

theorem Continues.bind {ε α β : Type} {short : ε → Prop} {extra : Bits} {read : Reader ε α}
    {next : α → Reader ε β} {stream longer : BitStream}
    (h : Continues short extra (read stream) (read longer)) (k : ∀ a, Local short (next a)) :
    Continues short extra ((read >>= next) stream) ((read >>= next) longer) := by
  simp only [Bind.bind, EStateM.bind]
  generalize read stream = answer at h ⊢
  generalize read longer = answer' at h ⊢
  cases h with
  | same front => exact k _ front
  | failed => exact .failed
  | ended early => exact .ended early

namespace Local

variable {ε ε' α β : Type} {short : ε → Prop} {read : Reader ε α} {next : α → Reader ε β}

theorem pure (a : α) : Local short (Pure.pure a : Reader ε α) := by
  intro stream longer extra front
  exact .same front

theorem throw (error : ε) : Local short (MonadExcept.throw error : Reader ε α) := by
  intro stream longer extra front
  exact .failed

theorem bind (h : Local short read) (k : ∀ a, Local short (next a)) :
    Local short (read >>= next) := by
  intro stream longer extra front
  exact (h front).bind k

theorem mapError {short' : ε' → Prop} {restate : ε → ε'} (h : Local short read)
    (imp : ∀ error, short error → short' (restate error)) :
    Local short' (Reader.mapError restate read) := by
  intro stream longer extra front
  have answers := h front
  unfold Reader.mapError
  generalize read stream = answer at answers ⊢
  generalize read longer = answer' at answers ⊢
  cases answers with
  | same front => exact .same front
  | failed => exact .failed
  | ended early => exact .ended (imp _ early)

theorem lift {read : Reader BitError α} (h : Local BitError.IsShortage read) :
    Local DecodeError.IsShortage (Reader.mapError DecodeError.malformed read) :=
  h.mapError fun _ early => early

theorem optional {flag : Reader ε Bool} (hflag : Local short flag) (h : Local short read) :
    Local short (Reader.optional flag read) := by
  refine hflag.bind fun present => ?_
  cases present with
  | false => exact pure none
  | true => exact h.bind fun _ => pure _

theorem count (h : Local short read) (times : Nat) : Local short (Reader.count read times) := by
  induction times with
  | zero => exact pure []
  | succ times ih => exact h.bind fun _ => ih.bind fun _ => pure _

theorem bits (width : Nat) : Local BitError.IsShortage (Reader.bits width) := by
  intro stream longer extra front
  unfold Reader.bits
  by_cases wide : maxFieldWidth < width
  · rw [if_pos wide, if_pos wide]
    exact .failed
  · rw [if_neg wide, if_neg wide]
    by_cases enough : width ≤ stream.length
    · have inside : width ≤ stream.bits.length := by rwa [BitStream.length_bits]
      have more : width ≤ longer.length := by
        rw [← BitStream.length_bits, front, List.length_append]
        omega
      obtain ⟨left, taken, behind⟩ := BitStream.take?_eq enough
      obtain ⟨rest, taken', behind'⟩ := BitStream.take?_eq more
      rw [front, List.take_append_of_le_length inside] at taken'
      rw [front, List.drop_append_of_le_length inside, ← behind] at behind'
      rw [taken, taken']
      exact .same behind'
    · rw [BitStream.take?_eq_none (Nat.not_le.1 enough)]
      exact .ended (Nat.not_le.1 enough)

theorem bit : Local BitError.IsShortage Reader.bit :=
  (bits 1).bind fun _ => pure _

theorem groups (maxGroups left weight sum : Nat) :
    Local BitError.IsShortage (Reader.groups maxGroups left weight sum) := by
  induction left generalizing weight sum with
  | zero => exact throw _
  | succ left ih =>
    rw [Reader.groups]
    refine bit.bind fun more => (bits Varint.groupBits).bind fun group => ?_
    by_cases narrow : group * weight < UInt64.size
    · simp only [if_pos narrow]
      cases more with
      | false => exact pure _
      | true => exact ih _ _
    · simp only [if_neg narrow]
      exact throw _

theorem varu64 : Local BitError.IsShortage Reader.varu64 :=
  (groups _ _ _ _).bind fun _ => pure _

theorem varu32 : Local BitError.IsShortage Reader.varu32 := by
  refine (groups _ _ _ _).bind fun value => ?_
  by_cases small : value < UInt32.size
  · rw [if_pos small]
    exact pure _
  · rw [if_neg small]
    exact throw _

theorem vars32 : Local BitError.IsShortage Reader.vars32 :=
  varu32.bind fun _ => pure _

theorem double : Local BitError.IsShortage Reader.double :=
  (bits 64).bind fun _ => pure _

theorem vec3 : Local BitError.IsShortage Reader.vec3 :=
  double.bind fun _ => double.bind fun _ => double.bind fun _ => pure _

theorem quat : Local BitError.IsShortage Reader.quat :=
  double.bind fun _ => double.bind fun _ => double.bind fun _ => double.bind fun _ => pure _

theorem zone : Local BitError.IsShortage Reader.zone :=
  vars32.bind fun _ => vars32.bind fun _ => vars32.bind fun _ => pure _

theorem delta : Local BitError.IsShortage Reader.delta :=
  varu32.bind fun _ => varu64.bind fun _ => bit.bind fun _ => (optional bit varu64).bind fun _ =>
    (optional bit varu64).bind fun _ => (optional bit varu32).bind fun _ =>
    (optional bit vec3).bind fun _ => (optional bit quat).bind fun _ => pure _

theorem within (limits : Limits) (bound : Bound) (actual : Nat) :
    Local DecodeError.IsShortage (Reader.within limits bound actual) := by
  unfold Reader.within
  split
  · exact pure ()
  · exact throw _

theorem countWithin (limits : Limits) (bound : Bound) :
    Local DecodeError.IsShortage (Reader.countWithin limits bound) :=
  varu32.lift.bind fun _ => (within limits bound _).bind fun _ => pure _

theorem frame (limits : Limits) : Local DecodeError.IsShortage (Reader.frame limits) :=
  varu64.lift.bind fun _ => (optional bit zone).lift.bind fun _ =>
    (countWithin limits .statesPerFrame).bind fun times => (count delta times).lift.bind fun _ =>
    pure _

end Local

section Continues

variable {stream longer : BitStream} {extra : Bits}

theorem filled_of_longer (front : longer.bits = stream.bits ++ extra) (filled : ¬ stream.isEmpty) :
    ¬ longer.isEmpty := by
  have length := congrArg List.length front
  rw [List.length_append, BitStream.length_bits, BitStream.length_bits] at length
  rw [BitStream.isEmpty_iff] at filled ⊢
  omega

theorem Continues.bind_get {ε α : Type} {short : ε → Prop} {next : BitStream → Reader ε α}
    (h : Continues short extra (next stream stream) (next longer longer)) :
    Continues short extra ((get >>= next) stream) ((get >>= next) longer) := h

/-- Only a stream that is empty from the start is told apart. -/
theorem Continues.kind (front : longer.bits = stream.bits ++ extra) (filled : ¬ stream.isEmpty) :
    Continues DecodeError.IsShortage extra (Reader.kind stream) (Reader.kind longer) := by
  unfold Reader.kind
  refine .bind_get ?_
  simp only [if_neg filled, if_neg (filled_of_longer front filled)]
  refine (Local.bits 4).lift.bind (fun version => ?_) front
  by_cases other : version ≠ formatVersion
  · rw [if_pos other]
    exact .throw _
  · rw [if_neg other]
    refine (Local.bits 4).lift.bind fun code => ?_
    split
    · exact .pure _
    · exact .throw _

theorem Continues.expectKind (expected : MessageKind) (front : longer.bits = stream.bits ++ extra)
    (filled : ¬ stream.isEmpty) :
    Continues DecodeError.IsShortage extra (Reader.expectKind expected stream)
      (Reader.expectKind expected longer) := by
  refine (Continues.kind front filled).bind fun found => ?_
  by_cases other : found ≠ expected
  · rw [if_pos other]
    exact .throw _
  · rw [if_neg other]
    exact .pure ()

end Continues

/-- Where `read` accepts the longer stream the shorter one ends too early, and where it accepts the
shorter one the longer one leaves `bytes` whole bytes over. -/
structure Delimits {α : Type} (read : Reader DecodeError α) (stream longer : BitStream)
    (bytes : Nat) : Prop where
  cut : ∀ value left, read longer = .ok value left →
    ∃ error rest, read stream = .error error rest ∧ error.IsShortage
  extended : ∀ value left, read stream = .ok value left →
    ∃ count rest, read longer = .error (.trailingBits count) rest ∧ count / 8 = bytes

/-- `read` accepts no stream together with one that is longer by whole bytes. -/
def Closes {α : Type} (read : Reader DecodeError α) : Prop :=
  ∀ ⦃stream longer extra bytes⦄, longer.bits = stream.bits ++ extra → extra.length = 8 * bytes →
    0 < bytes → Delimits read stream longer bytes

section Closes

variable {α β : Type} {read : Reader DecodeError α} {next : α → Reader DecodeError β}
  {stream longer : BitStream} {extra : Bits} {bytes : Nat}

theorem Continues.delimits
    (h : Continues DecodeError.IsShortage extra (read stream) (read longer))
    (whole : extra.length = 8 * bytes) (positive : 0 < bytes) (k : ∀ a, Closes (next a)) :
    Delimits (read >>= next) stream longer bytes := by
  constructor
  · intro value left run
    simp only [Bind.bind, EStateM.bind] at run ⊢
    generalize read stream = answer at h ⊢
    generalize read longer = answer' at h run
    cases h with
    | same front => exact (k _ front whole positive).cut value left run
    | failed => cases run
    | ended early => exact ⟨_, _, rfl, early⟩
  · intro value left run
    simp only [Bind.bind, EStateM.bind] at run ⊢
    generalize read stream = answer at h run
    generalize read longer = answer' at h ⊢
    cases h with
    | same front => exact (k _ front whole positive).extended value left run
    | failed | ended => cases run

theorem Local.closes (h : Local DecodeError.IsShortage read) (k : ∀ a, Closes (next a)) :
    Closes (read >>= next) := by
  intro stream longer extra bytes front whole positive
  exact (h front).delimits whole positive k

/-- At the end of a message less than a byte may be left, and `bytes` whole bytes are more. -/
theorem Closes.finish (a : α) : Closes (Reader.finish >>= fun _ => pure a) := by
  intro stream longer extra bytes front whole positive
  have length := congrArg List.length front
  rw [List.length_append, BitStream.length_bits, BitStream.length_bits, whole] at length
  have beyond : Reader.finish longer = .error (.trailingBits longer.length) longer :=
    Reader.finish_of_le (by omega)
  constructor
  · -- Both streams came this far, so the longer one is refused and there is nothing to show.
    intro value left run
    simp only [Bind.bind, EStateM.bind, beyond] at run
    cases run
  · intro value left run
    have short : stream.length < 8 := by
      by_contra long
      simp only [Bind.bind, EStateM.bind, Reader.finish_of_le (Nat.not_lt.1 long)] at run
      cases run
    refine ⟨longer.length, longer, ?_, by omega⟩
    simp only [Bind.bind, EStateM.bind, beyond]

end Closes

section Messages

variable {stream longer : BitStream} {extra : Bits} {bytes : Nat}

theorem Message.delimits (limits : Limits) (front : longer.bits = stream.bits ++ extra)
    (filled : ¬ stream.isEmpty) (whole : extra.length = 8 * bytes) (positive : 0 < bytes) :
    Delimits (Reader.message limits) stream longer bytes :=
  (Continues.expectKind .frames front filled).delimits whole positive fun _ =>
    Local.varu64.lift.closes fun _ => Local.varu64.lift.closes fun _ =>
    (Local.countWithin limits .acksPerHeader).closes fun acks =>
    (Local.varu64.count acks).lift.closes fun _ =>
    (Local.countWithin limits .framesPerMessage).closes fun frames =>
    ((Local.frame limits).count frames).closes fun _ => .finish _

theorem Ack.delimits (receivedAt : Time) (front : longer.bits = stream.bits ++ extra)
    (filled : ¬ stream.isEmpty) (whole : extra.length = 8 * bytes) (positive : 0 < bytes) :
    Delimits (Reader.ack receivedAt) stream longer bytes :=
  (Continues.expectKind .ack front filled).delimits whole positive fun _ =>
    Local.varu64.lift.closes fun _ => Local.varu64.lift.closes fun _ => .finish _

end Messages

/-- `decode` takes the packet for a whole. Of the packets that it `admits` for their size, one that
is cut off ends too early, and one that goes on leaves all that is behind it over. -/
structure Whole {α : Type} (decode : Packet → Except DecodeError α) (admits : Packet → Prop)
    (packet : Packet) : Prop where
  empty : decode [] = .error .empty
  cut : ∀ cut, cut <+: packet → cut ≠ packet → cut ≠ [] → admits cut →
    ∃ requested available, available < requested ∧
      decode cut = .error (.malformed (.endOfInput requested available))
  extended : ∀ tail, tail ≠ [] → admits (packet ++ tail) →
    ∃ count, count / 8 = tail.length ∧ decode (packet ++ tail) = .error (.trailingBits count)

theorem BitStream.filled_ofPacket {packet : Packet} (h : packet ≠ []) :
    ¬ (ofPacket packet).isEmpty := by
  have length : (ofPacket packet).length = 8 * packet.length := Nat.zero_add _
  have positive := List.length_pos_iff.2 h
  rw [isEmpty_iff]
  omega

/-- A packet that a delimiting reader accepts. -/
theorem Whole.of_accepted {α : Type} {read : Reader DecodeError α} {packet : Packet} {value : α}
    (delimits : ∀ {stream longer extra bytes}, longer.bits = stream.bits ++ extra →
      ¬ stream.isEmpty → extra.length = 8 * bytes → 0 < bytes → Delimits read stream longer bytes)
    (empty : read.run [] = .error .empty) (accepted : read.run packet = .ok value) :
    Whole read.run (fun _ => True) packet where
  empty := empty
  cut := by
    rintro cut ⟨more, rfl⟩ proper filled -
    have left : more ≠ [] := by
      rintro rfl
      exact proper (List.append_nil cut).symm
    have front : (BitStream.ofPacket (cut ++ more)).bits =
        (BitStream.ofPacket cut).bits ++ unpack more := by
      rw [BitStream.bits_ofPacket, BitStream.bits_ofPacket, unpack_append]
    obtain ⟨rest, run⟩ := Reader.run_eq_ok_iff.1 accepted
    obtain ⟨error, rest, failed, early⟩ :=
      (delimits front (BitStream.filled_ofPacket filled) (length_unpack more)
        (List.length_pos_iff.2 left)).cut value rest run
    obtain ⟨requested, available, fewer, rfl⟩ := DecodeError.isShortage_iff.1 early
    refine ⟨requested, available, fewer, ?_⟩
    rw [Reader.run, failed]
  extended := by
    intro tail behind _
    have filled : packet ≠ [] := by
      rintro rfl
      rw [empty] at accepted
      cases accepted
    have front : (BitStream.ofPacket (packet ++ tail)).bits =
        (BitStream.ofPacket packet).bits ++ unpack tail := by
      rw [BitStream.bits_ofPacket, BitStream.bits_ofPacket, unpack_append]
    obtain ⟨rest, run⟩ := Reader.run_eq_ok_iff.1 accepted
    obtain ⟨count, rest, beyond, whole⟩ :=
      (delimits front (BitStream.filled_ofPacket filled) (length_unpack tail)
        (List.length_pos_iff.2 behind)).extended value rest run
    refine ⟨count, whole, ?_⟩
    rw [Reader.run, beyond]

theorem Whole.admitting {α : Type} {run decode : Packet → Except DecodeError α}
    {admits : Packet → Prop} {packet : Packet} (h : Whole run (fun _ => True) packet)
    (agrees : ∀ input, admits input → decode input = run input) (start : admits []) :
    Whole decode admits packet where
  empty := by rw [agrees [] start, h.empty]
  cut := by
    intro cut before proper filled admitted
    rw [agrees cut admitted]
    exact h.cut cut before proper filled trivial
  extended := by
    intro tail behind admitted
    rw [agrees _ admitted]
    exact h.extended tail behind trivial

/-- The bytes of a message or of an acknowledgment are a whole to every receiver whose limits the
counts of the message respect. -/
theorem encoded_packets_stand_alone :
    (∀ (message : Message) (limits : Limits) (packet : Packet), message.encode = .ok packet →
      (∀ count ∈ message.counts, count.2 ≤ limits.get count.1) →
      Whole (Message.decode limits) (fun input => input.length ≤ limits.messageBytes) packet) ∧
    ∀ (id : MessageId) (sentAt receivedAt : Time),
      Whole (fun input => Ack.decode input receivedAt) (fun _ => True)
        (Ack.encode id sentAt) := by
  constructor
  · intro message limits packet encoded within
    have small := (Message.encode_eq_ok_iff.1 encoded).1
    have admits : limits.Admits message := by
      intro count hc
      exact ⟨small count hc, within count hc⟩
    have whole : Whole (Reader.message limits).run (fun _ => True) packet :=
      .of_accepted (Message.delimits limits) rfl (Message.run_encode admits encoded)
    apply whole.admitting
    · intro input short
      exact Message.decode_of_le short
    · exact Nat.zero_le _
  · intro id sentAt receivedAt
    exact .of_accepted (Ack.delimits receivedAt) rfl (Ack.decode_encode id sentAt receivedAt)

/-- The last byte of this message holds one bit of its last count and seven of padding. -/
theorem encoded_packets_stand_alone_short :
    Message.encode { id := 0, sentAt := 0, frames := [{ time := 1 }] } =
      .ok [0x11, 0, 0, 0, 1, 1, 0, 0] ∧
    (∀ count ∈ Message.counts { id := 0, sentAt := 0, frames := [{ time := 1 }] },
      count.2 ≤ Limits.small.get count.1) ∧
    (∃ requested available, available < requested ∧
      Message.decode .small [0x11, 0, 0, 0, 1, 1, 0] =
        .error (.malformed (.endOfInput requested available))) ∧
    ∃ count, count / 8 = 1 ∧
      Message.decode .small [0x11, 0, 0, 0, 1, 1, 0, 0, 0] = .error (.trailingBits count) := by
  have encoded : Message.encode { id := 0, sentAt := 0, frames := [{ time := 1 }] } =
      .ok [0x11, 0, 0, 0, 1, 1, 0, 0] := by decide +kernel
  have within : ∀ count ∈ Message.counts { id := 0, sentAt := 0, frames := [{ time := 1 }] },
      count.2 ≤ Limits.small.get count.1 := by decide
  have whole := encoded_packets_stand_alone.1 _ .small _ encoded within
  refine ⟨encoded, within, ?_, ?_⟩
  · exact whole.cut _ ⟨[0], rfl⟩ (by decide) (by decide) (by decide)
  · exact whole.extended [0] (by decide) (by decide)

end AreaReplication
