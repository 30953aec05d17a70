import AreaReplication.Proofs.Size

/-!
# What is read can be written again

Many packets hold the same message: a number may be stretched over more groups than it needs, and
the bits behind the last field are arbitrary. A reader never answers a value whose written form is
longer than what it consumed, so a packet that was read is written again in no more bytes, and from
then on reading and writing change nothing.
-/
namespace AreaReplication

open Bits

namespace BitStream

theorem takeFrom_length_of_le {width value count current taken : Nat} {fits : count ≤ 8}
    {bytes : Packet} {rest : BitStream} (inside : width ≤ count)
    (h : takeFrom width value count current fits bytes = some (taken, rest)) :
    count + 8 * bytes.length = width + rest.length := by
  rw [takeFrom_of_le _ _ _ _ inside] at h
  obtain ⟨-, rfl⟩ := Prod.mk.inj (Option.some.inj h)
  simp only [length]
  omega

/-- What is taken is no longer there. -/
theorem takeFrom_length {width value count current taken : Nat} {fits : count ≤ 8}
    {bytes : Packet} {rest : BitStream}
    (h : takeFrom width value count current fits bytes = some (taken, rest)) :
    count + 8 * bytes.length = width + rest.length := by
  induction bytes generalizing width value count current with
  | nil =>
    by_cases inside : width ≤ count
    · exact takeFrom_length_of_le inside h
    · rw [takeFrom_nil _ _ _ inside] at h
      cases h
  | cons byte bytes ih =>
    by_cases inside : width ≤ count
    · exact takeFrom_length_of_le inside h
    · rw [takeFrom_cons _ _ _ _ _ inside] at h
      have behind := ih h
      rw [List.length_cons]
      omega

theorem take?_length {width taken : Nat} {stream rest : BitStream}
    (h : stream.take? width = some (taken, rest)) : stream.length = width + rest.length :=
  takeFrom_length h

end BitStream

theorem Bits.toNat_lt (bits : Bits) : toNat bits < 2 ^ bits.length := by
  induction bits with
  | nil => exact Nat.one_pos
  | cons bit rest ih =>
    have split := toNat_append [bit] rest
    have first : toNat [bit] = bit.toNat := by simp [toNat]
    have small := Bool.toNat_lt bit
    rw [List.singleton_append, first] at split
    rw [split, List.length_cons, Nat.pow_succ]
    calc bit.toNat * 2 ^ rest.length + toNat rest
        < bit.toNat * 2 ^ rest.length + 2 ^ rest.length := Nat.add_lt_add_left ih _
      _ = (bit.toNat + 1) * 2 ^ rest.length := (Nat.succ_mul _ _).symm
      _ ≤ 2 * 2 ^ rest.length := Nat.mul_le_mul_right _ small
      _ = 2 ^ rest.length * 2 := Nat.mul_comm _ _

theorem BitStream.take?_lt {width taken : Nat} {stream rest : BitStream}
    (h : stream.take? width = some (taken, rest)) : taken < 2 ^ width := by
  have enough : width ≤ stream.length := by
    have := take?_length h
    omega
  obtain ⟨left, front, -⟩ := take?_eq enough
  rw [h] at front
  obtain ⟨rfl, -⟩ := Prod.mk.inj (Option.some.inj front)
  have bound := Bits.toNat_lt (stream.bits.take width)
  rwa [List.length_take_of_le (by rwa [length_bits])] at bound

/-- Whenever `read` answers, it has consumed a number of bits that `post` relates to the answer. -/
def Spends {ε α : Type} (read : Reader ε α) (post : Nat → α → Prop) : Prop :=
  ∀ stream value left, read stream = .ok value left →
    ∃ spent, stream.length = spent + left.length ∧ post spent value

namespace Spends

variable {ε ε' α β : Type} {read : Reader ε α} {next : α → Reader ε β} {post : Nat → α → Prop}
  {goal : Nat → β → Prop}

theorem mono {weaker : Nat → α → Prop} (h : Spends read post)
    (imp : ∀ spent a, post spent a → weaker spent a) : Spends read weaker := by
  intro stream value left run
  obtain ⟨spent, length, holds⟩ := h stream value left run
  exact ⟨spent, length, imp spent value holds⟩

theorem pure {a : α} (h : post 0 a) : Spends (Pure.pure a : Reader ε α) post := by
  intro stream value left run
  cases run
  exact ⟨0, (Nat.zero_add _).symm, h⟩

theorem throw (error : ε) : Spends (MonadExcept.throw error : Reader ε α) post := by
  intro stream value left run
  cases run

theorem get : Spends (MonadState.get : Reader ε BitStream) fun spent _ => spent = 0 := by
  intro stream value left run
  cases run
  exact ⟨0, (Nat.zero_add _).symm, rfl⟩

theorem bind (h : Spends read post)
    (k : ∀ spent a, post spent a → Spends (next a) fun more b => goal (spent + more) b) :
    Spends (read >>= next) goal := by
  intro stream b left run
  simp only [Bind.bind, EStateM.bind] at run
  split at run
  · next a middle first =>
    obtain ⟨spent, here, ha⟩ := h stream a middle first
    obtain ⟨more, there, hb⟩ := k spent a ha middle b left run
    exact ⟨spent + more, by omega, hb⟩
  · cases run

theorem mapError (restate : ε → ε') (h : Spends read post) :
    Spends (Reader.mapError restate read) post := by
  intro stream value left run
  unfold Reader.mapError at run
  split at run
  · next a rest answer =>
    cases run
    exact h stream value left answer
  · cases run

theorem lift {read : Reader BitError α} (h : Spends read post) :
    Spends (liftM read : Reader DecodeError α) post :=
  h.mapError DecodeError.malformed

theorem optional {flag : Reader ε Bool} {form : α → Bits}
    (hflag : Spends flag fun spent _ => spent = 1)
    (h : Spends read fun spent a => (form a).length ≤ spent) :
    Spends (Reader.optional flag read) fun spent value =>
      (optionalForm form value).length ≤ spent := by
  refine hflag.bind fun one present hone => ?_
  cases present with
  | false => exact pure (by simp [optionalForm, hone])
  | true =>
    refine h.bind fun spent a ha => pure ?_
    rw [optionalForm, List.length_append, List.length_singleton]
    omega

theorem count {form : α → Bits} {good : α → Prop}
    (h : Spends read fun spent a => (form a).length ≤ spent ∧ good a) (times : Nat) :
    Spends (Reader.count read times) fun spent values =>
      values.length = times ∧ (values.flatMap form).length ≤ spent ∧ ∀ a ∈ values, good a := by
  induction times with
  | zero => exact pure ⟨rfl, Nat.le_refl 0, fun a ha => absurd ha List.not_mem_nil⟩
  | succ times ih =>
    refine h.bind fun spent a ha => ih.bind fun more rest hrest => pure ?_
    obtain ⟨length, short, all⟩ := hrest
    refine ⟨congrArg Nat.succ length, ?_, List.forall_mem_cons.2 ⟨ha.2, all⟩⟩
    rw [List.flatMap_cons, List.length_append]
    omega

end Spends

namespace Varint

theorem size_pos (value : Nat) : 8 ≤ size value := by
  by_cases last : value < groupBase
  · exact Nat.le_of_eq (size_of_lt last).symm
  · rw [size_of_le (Nat.not_lt.1 last)]
    omega

theorem size_mono {low high : Nat} (h : low ≤ high) : size low ≤ size high := by
  induction high using Nat.strongRecOn generalizing low with
  | ind high ih =>
    by_cases last : low < groupBase
    · rw [size_of_lt last]
      exact size_pos high
    · have more : groupBase ≤ low := Nat.not_lt.1 last
      have shorter : high / groupBase < high :=
        Nat.div_lt_self (Nat.lt_of_lt_of_le (by decide) (Nat.le_trans more h)) (by decide)
      rw [size_of_le more, size_of_le (Nat.le_trans more h)]
      exact Nat.add_le_add_right (ih _ shorter (Nat.div_le_div_right h)) 8

/-- A group put in front of a number costs at most its own byte. -/
theorem size_group_le {group : Nat} (h : group < groupBase) (value : Nat) :
    size (group + groupBase * value) ≤ size value + 8 := by
  have positive : 0 < groupBase := by decide
  by_cases last : group + groupBase * value < groupBase
  · rw [size_of_lt last]
    omega
  · have high : (group + groupBase * value) / groupBase = value := by
      rw [Nat.add_mul_div_left _ _ positive, Nat.div_eq_of_lt h, Nat.zero_add]
    rw [size_of_le (Nat.not_lt.1 last), high]

/-- Every 32-bit number is the fold of the number that it unfolds to. -/
theorem zigzag_unzigzag {folded : Nat} (h : folded < UInt32.size) :
    zigzag (unzigzag folded) = folded := by
  have bound : UInt32.size = 2 ^ 32 := rfl
  unfold unzigzag
  by_cases even : folded % 2 = 0
  · have half : (Int32.ofNat (folded / 2)).toInt = (folded / 2 : Nat) :=
      Int32.toInt_ofNat_of_lt (by omega)
    rw [if_pos even, zigzag, half, if_pos (Int.natCast_nonneg _), Int.toNat_natCast]
    omega
  · have half : (Int32.ofInt (-(folded / 2 : Nat) - 1)).toInt = -(folded / 2 : Nat) - 1 :=
      Int32.toInt_ofInt_of_le (by omega) (by omega)
    rw [if_neg even, zigzag, half, if_neg (by omega)]
    omega

end Varint

namespace Spends

theorem bits (width : Nat) :
    Spends (Reader.bits width) fun spent value => spent = width ∧ value < 2 ^ width := by
  intro stream value left run
  unfold Reader.bits at run
  split at run
  · cases run
  · split at run
    · next taken rest h =>
      cases run
      exact ⟨width, BitStream.take?_length h, rfl, BitStream.take?_lt h⟩
    · cases run

theorem bit : Spends Reader.bit fun spent _ => spent = 1 :=
  (bits 1).bind fun _ _ h => pure h.1

/-- The groups that were read are at least those that their number needs. -/
theorem groups (maxGroups left weight sum : Nat) :
    Spends (Reader.groups maxGroups left weight sum) fun spent result =>
      ∃ value, result = sum + value * weight ∧ Varint.size value ≤ spent := by
  induction left generalizing weight sum with
  | zero => exact throw _
  | succ left ih =>
    rw [Reader.groups]
    refine bit.bind fun one more hone => (bits Varint.groupBits).bind fun seven group hgroup => ?_
    obtain ⟨rfl, small⟩ := hgroup
    have eight : one + Varint.groupBits = 8 := by rw [hone]; rfl
    by_cases narrow : group * weight < UInt64.size
    · simp only [if_pos narrow]
      cases more with
      | false =>
        have last : Varint.size group ≤ one + (Varint.groupBits + 0) := by
          rw [Varint.size_of_lt small]
          omega
        exact pure ⟨group, rfl, last⟩
      | true =>
        -- The groups that follow make `value`, and with this one before them the number is longer.
        intro stream result rest run
        obtain ⟨spent, length, value, rfl, short⟩ := ih _ _ stream result rest run
        have longer := Varint.size_group_le small value
        refine ⟨spent, length, group + Varint.groupBase * value, ?_, by omega⟩
        ring
    · simp only [if_neg narrow]
      exact throw _

theorem number (maxGroups : Nat) :
    Spends (Reader.number maxGroups) fun spent value => Varint.size value ≤ spent := by
  refine (groups maxGroups maxGroups 1 0).mono fun spent result h => ?_
  obtain ⟨value, rfl, short⟩ := h
  rwa [Nat.zero_add, Nat.mul_one]

theorem varu64 :
    Spends Reader.varu64 fun spent value => (Varint.form value.toNat).length ≤ spent := by
  refine (number Varint.maxGroups64).bind fun spent value short => pure ?_
  rw [Varint.length_form, UInt64.toNat_ofNat']
  exact Nat.le_trans (Varint.size_mono (Nat.mod_le _ _)) short

theorem varu32 :
    Spends Reader.varu32 fun spent value => (Varint.form value.toNat).length ≤ spent := by
  refine (number Varint.maxGroups32).bind fun spent value short => ?_
  split
  · next small =>
    refine pure ?_
    rw [Varint.length_form, UInt32.toNat_ofNat_of_lt' small]
    exact short
  · exact throw _

theorem vars32 :
    Spends Reader.vars32 fun spent value =>
      (Varint.form (Varint.zigzag value)).length ≤ spent := by
  refine varu32.bind fun spent folded short => pure ?_
  rw [Varint.zigzag_unzigzag folded.toNat_lt]
  exact short

theorem double : Spends Reader.double fun spent value => value.form.length ≤ spent := by
  refine (bits 64).bind fun spent value h => pure ?_
  rw [Binary64.form, length_ofNat]
  omega

theorem vec3 : Spends Reader.vec3 fun spent v => v.form.length ≤ spent := by
  refine double.bind fun _ x hx => double.bind fun _ y hy => double.bind fun _ z hz => pure ?_
  simp only [Vec3.form, Vec3.toList, List.flatMap_cons, List.flatMap_nil, List.length_append,
    List.length_nil]
  omega

theorem quat : Spends Reader.quat fun spent q => q.form.length ≤ spent := by
  refine double.bind fun _ x hx => double.bind fun _ y hy => double.bind fun _ z hz =>
    double.bind fun _ w hw => pure ?_
  simp only [Quat.form, Quat.toList, List.flatMap_cons, List.flatMap_nil, List.length_append,
    List.length_nil]
  omega

theorem zone : Spends Reader.zone fun spent zone => zone.form.length ≤ spent := by
  refine vars32.bind fun _ x hx => vars32.bind fun _ y hy => vars32.bind fun _ z hz => pure ?_
  rw [Zone.form, List.length_append, List.length_append]
  exact Nat.add_le_add hx (Nat.add_le_add hy hz)

theorem delta : Spends Reader.delta fun spent delta => delta.form.length ≤ spent := by
  refine varu32.bind fun _ netId hnetId => varu64.bind fun _ version hversion =>
    bit.bind fun _ removed hremoved => ?_
  refine (optional bit varu64).bind fun _ baseline hbaseline =>
    (optional bit varu64).bind fun _ entity hentity => ?_
  refine (optional bit varu32).bind fun _ zoneId hzoneId =>
    (optional bit vec3).bind fun _ position hposition =>
    (optional bit quat).bind fun _ rotation hrotation => pure ?_
  simp only [Delta.form, List.length_append, List.length_singleton]
  have fields := Nat.add_le_add hentity
    (Nat.add_le_add hzoneId (Nat.add_le_add hposition hrotation))
  exact Nat.add_le_add hnetId <| Nat.add_le_add hversion <|
    Nat.add_le_add (Nat.le_of_eq hremoved.symm) <| Nat.add_le_add hbaseline fields

section Limits

variable (limits : Limits)

theorem within (bound : Bound) (actual : Nat) :
    Spends (Reader.within limits bound actual) fun spent _ =>
      spent = 0 ∧ actual ≤ limits.get bound := by
  unfold Reader.within
  by_cases large : limits.get bound < actual
  · rw [Limits.check_of_lt large]
    exact throw _
  · rw [Limits.check_of_le (Nat.not_lt.1 large)]
    exact pure ⟨rfl, Nat.not_lt.1 large⟩

/-- A count that was read has a written form, is within its limit and is stated no longer than it
was. -/
theorem countWithin (bound : Bound) :
    Spends (Reader.countWithin limits bound) fun spent actual =>
      (Varint.form actual).length ≤ spent ∧ actual < Message.countBound ∧
        actual ≤ limits.get bound := by
  refine varu32.lift.bind fun spent actual short =>
    (within limits bound actual.toNat).bind fun none _ h => pure ?_
  obtain ⟨rfl, small⟩ := h
  exact ⟨short, actual.toNat_lt, small⟩

theorem frame : Spends (Reader.frame limits) fun spent frame =>
    frame.form.length ≤ spent ∧
      (frame.states.length < Message.countBound ∧
        frame.states.length ≤ limits.get .statesPerFrame) := by
  have state : Spends Reader.delta fun spent delta => delta.form.length ≤ spent ∧ True :=
    delta.mono fun _ _ short => ⟨short, trivial⟩
  refine varu64.lift.bind fun _ time htime =>
    ((optional bit zone).mapError DecodeError.malformed).bind fun _ center hcenter =>
    (countWithin limits .statesPerFrame).bind fun _ states hcount =>
    ((count state states).mapError DecodeError.malformed).bind fun _ states hstates => pure ?_
  obtain ⟨rfl, short, -⟩ := hstates
  refine ⟨?_, hcount.2⟩
  simp only [Frame.form, List.length_append]
  omega

end Limits

theorem kind : Spends Reader.kind fun spent _ => spent = 8 := by
  refine get.bind fun none stream hnone => ?_
  subst hnone
  by_cases ended : stream.isEmpty
  · rw [if_pos ended]
    exact throw _
  · rw [if_neg ended]
    refine (bits 4).lift.bind fun _ version hversion => ?_
    by_cases other : version ≠ formatVersion
    · rw [if_pos other]
      exact throw _
    · rw [if_neg other]
      refine (bits 4).lift.bind fun _ code hcode => ?_
      split
      · exact pure (by omega)
      · exact throw _

theorem expectKind (expected : MessageKind) :
    Spends (Reader.expectKind expected) fun spent _ => spent = 8 := by
  refine kind.bind fun spent found hspent => ?_
  by_cases other : found ≠ expected
  · rw [if_pos other]
    exact throw _
  · rw [if_neg other]
    exact pure hspent

theorem finish : Spends Reader.finish fun spent _ => spent = 0 := by
  refine get.bind fun none stream hnone => ?_
  by_cases long : 8 ≤ stream.length
  · simp only [if_pos long]
    exact throw _
  · simp only [if_neg long]
    exact pure hnone

/-- A message that was read is one that its receiver admits, and is written no longer. -/
theorem message (limits : Limits) : Spends (Reader.message limits) fun spent message =>
    message.form.length ≤ spent ∧ limits.Admits message := by
  have echo : Spends Reader.varu64 fun spent id =>
      (Varint.form id.toNat).length ≤ spent ∧ True :=
    varu64.mono fun _ _ short => ⟨short, trivial⟩
  refine (expectKind .frames).bind fun _ _ hkind => varu64.lift.bind fun _ id hid =>
    varu64.lift.bind fun _ sentAt hsentAt => ?_
  refine (countWithin limits .acksPerHeader).bind fun _ acks hacks =>
    ((count echo acks).mapError DecodeError.malformed).bind fun _ echoed hechoed =>
    (countWithin limits .framesPerMessage).bind fun _ frames hcount =>
    (count (frame limits) frames).bind fun _ frames hframes =>
    finish.bind fun _ _ hfinish => pure ?_
  obtain ⟨rfl, short, -⟩ := hechoed
  obtain ⟨rfl, shorter, within⟩ := hframes
  subst hfinish
  -- `finish` takes nothing, as the padding stays behind.
  constructor
  · have leading : MessageKind.frames.form.length = 8 := rfl
    simp only [Message.form, List.length_append, leading]
    have body := Nat.add_le_add hcount.1 shorter
    exact Nat.add_le_add (Nat.le_of_eq hkind.symm) <| Nat.add_le_add hid <|
      Nat.add_le_add hsentAt <| Nat.add_le_add hacks.1 <| Nat.add_le_add short body
  · exact Message.forall_mem_counts.2 ⟨hacks.2, hcount.2, within⟩

end Spends

/-- A packet that a receiver reads is written again: the bytes are no more than before, and the
receiver reads the same message from them, down to the bits of its floating-point words. Writing
that message again gives the same bytes. -/
theorem decoded_packets_canonicalise (limits : Limits) (packet : Packet) (message : Message)
    (decoded : Message.decode limits packet = .ok message) : ∃ rewritten,
      message.encode = .ok rewritten ∧ rewritten.length ≤ packet.length ∧
        Message.decode limits rewritten = .ok message := by
  unfold Message.decode Limits.check at decoded
  by_cases large : limits.get .messageBytes < packet.length
  · rw [if_pos large] at decoded
    cases decoded
  · rw [if_neg large] at decoded
    have size : packet.length ≤ limits.messageBytes := Nat.not_lt.1 large
    simp only [Reader.run] at decoded
    split at decoded
    · next answer left run =>
      have same : answer = message := Except.ok.inj decoded
      subst same
      obtain ⟨spent, length, short, admits⟩ := Spends.message limits _ _ _ run
      have total : (BitStream.ofPacket packet).length = 8 * packet.length := Nat.zero_add _
      have encoded : answer.encode = .ok (answer.write {}).finish :=
        Message.encode_eq_ok_iff.2 ⟨fun count hc => (admits count hc).1, rfl⟩
      have fits : (answer.write {}).finish.length ≤ packet.length := by
        rw [Message.length_packet encoded]
        unfold byteCount
        omega
      exact ⟨_, encoded, fits, Message.decode_encode admits encoded (Nat.le_trans fits size)⟩
    · cases decoded

/-- A packet whose message number is stretched over two groups and whose last bits are set. -/
def stretched : Packet := [0x11, 0x80, 0x00, 0x00, 0x00, 0x01, 0x01, 0x00, 0x7f]

theorem decoded_packets_canonicalise_stretched :
    Message.decode .small stretched = .ok { id := 0, sentAt := 0, frames := [{ time := 1 }] } ∧
    ∃ rewritten, Message.encode { id := 0, sentAt := 0, frames := [{ time := 1 }] } =
        .ok rewritten ∧ rewritten.length ≤ 9 ∧
      Message.decode .small rewritten =
        .ok { id := 0, sentAt := 0, frames := [{ time := 1 }] } := by
  have decoded : Message.decode .small stretched =
      .ok { id := 0, sentAt := 0, frames := [{ time := 1 }] } := by decide +kernel
  exact ⟨decoded, decoded_packets_canonicalise .small stretched _ decoded⟩

end AreaReplication
