import AreaReplication.Message.Decode
import AreaReplication.Proofs.Bits

/-!
# Written forms

The bits that each part of a message is written as. A writer emits its form behind whatever was
written before, and a reader that finds the form at the front of a stream answers the value and
stops right behind it. Both compose along `++`.
-/
namespace AreaReplication

open Bits

def Emits (write : BitBuffer → BitBuffer) (form : Bits) : Prop :=
  ∀ buffer, (write buffer).bits = buffer.bits ++ form

/-- `read` answers `value` to `form` and leaves what stands behind it. -/
def Reads {ε α : Type} (read : Reader ε α) (form : Bits) (value : α) : Prop :=
  ∀ stream rest, stream.bits = form ++ rest →
    ∃ left, read stream = .ok value left ∧ left.bits = rest

def Binary64.form (value : Binary64) : Bits := ofNat 64 value.bits.toNat

namespace Emits

variable {write next : BitBuffer → BitBuffer} {form more : Bits}

theorem comp (h : Emits write form) (k : Emits next more) :
    Emits (fun buffer => next (write buffer)) (form ++ more) := by
  intro buffer
  rw [k, h, List.append_assoc]

theorem flag (flag : Bool) : Emits (BitBuffer.putFlag flag) [flag] :=
  BitBuffer.bits_putFlag flag

theorem double (value : Binary64) : Emits value.write value.form :=
  BitBuffer.bits_putBytes (Nat.le_refl 8) value.bits

end Emits

namespace Reads

variable {ε α β : Type} {read : Reader ε α} {next : α → Reader ε β} {form more : Bits} {a : α}
  {b : β}

theorem pure (a : α) : Reads (Pure.pure a : Reader ε α) [] a :=
  fun stream _ front => ⟨stream, rfl, front⟩

theorem bind (h : Reads read form a) (k : Reads (next a) more b) :
    Reads (read >>= next) (form ++ more) b := by
  intro stream rest front
  obtain ⟨middle, here, front⟩ := h stream (more ++ rest) (by rw [front, List.append_assoc])
  obtain ⟨left, there, behind⟩ := k middle rest front
  refine ⟨left, ?_, behind⟩
  simp only [Bind.bind, EStateM.bind, here, there]

/-- The last part of a reader that puts its parts together. -/
theorem map {f : α → β} (h : Reads read form a) :
    Reads (read >>= fun a => Pure.pure (f a)) form (f a) := by
  rw [← List.append_nil form]
  exact h.bind (pure (f a))

theorem mapError {ε' : Type} (restate : ε → ε') (h : Reads read form a) :
    Reads (Reader.mapError restate read) form a := by
  intro stream rest front
  obtain ⟨left, here, behind⟩ := h stream rest front
  exact ⟨left, by rw [Reader.mapError, here], behind⟩

theorem bits {width value : Nat} (narrow : width ≤ maxFieldWidth) (fits : value < 2 ^ width) :
    Reads (Reader.bits width) (ofNat width value) value := by
  intro stream rest front
  obtain ⟨left, taken, behind⟩ := BitStream.take?_ofNat front fits
  exact ⟨left, by rw [Reader.bits, if_neg (Nat.not_lt.2 narrow), taken], behind⟩

theorem bit (flag : Bool) : Reads Reader.bit [flag] flag := by
  have number : Reads (Reader.bits 1) [flag] flag.toNat := by
    have h := bits (by decide : 1 ≤ maxFieldWidth) (Bool.toNat_lt flag)
    cases flag <;> exact h
  have h := number.map (f := fun value => value == 1)
  cases flag <;> exact h

theorem double (value : Binary64) : Reads Reader.double value.form value := by
  have h := (bits (by decide : 64 ≤ maxFieldWidth) value.bits.toNat_lt).map
    (f := fun bits => (⟨UInt64.ofNat bits⟩ : Binary64))
  rwa [UInt64.ofNat_toNat] at h

end Reads

namespace Varint

/-- The groups of `value`, the least significant one first, each behind the bit that says whether
more come. -/
def form (value : Nat) : Bits :=
  if value < groupBase then
    ofNat 8 value
  else
    ofNat 8 (groupBase + value % groupBase) ++ form (value / groupBase)
termination_by value
decreasing_by
  simp only [groupBase] at *
  omega

theorem emits (value : Nat) : Emits (write value) (form value) := by
  fun_induction form value with
  | case1 value last =>
    intro buffer
    rw [write, if_pos last, BitBuffer.bits_put]
  | case2 value more ih =>
    intro buffer
    rw [write, if_neg more, ih, BitBuffer.bits_put, List.append_assoc]

/-- A group behind a bit that says whether more come. -/
theorem ofNat_group {group : Nat} (more : Bool) (h : group < groupBase) :
    ofNat 8 (more.toNat * groupBase + group) = [more] ++ ofNat groupBits group := by
  have low : group % 2 ^ groupBits = group := Nat.mod_eq_of_lt h
  have split := ofNat_append 1 groupBits more.toNat group
  rw [low] at split
  cases more <;> exact split

variable (maxGroups left : Nat) {weight sum group : Nat}

theorem reads_last (h : group < groupBase) (narrow : group * weight < UInt64.size) :
    Reads (Reader.groups maxGroups (left + 1) weight sum) (ofNat 8 group)
      (sum + group * weight) := by
  have split := ofNat_group false h
  rw [Bool.toNat_false, Nat.zero_mul, Nat.zero_add] at split
  have number : Reads (Reader.bits groupBits) (ofNat groupBits group) group :=
    .bits (by decide) h
  rw [split, Reader.groups]
  refine (Reads.bit false).bind ?_
  rw [← List.append_nil (ofNat groupBits group)]
  refine number.bind ?_
  simp only [if_pos narrow]
  exact .pure _

theorem reads_more (h : group < groupBase) (narrow : group * weight < UInt64.size) {form : Bits}
    {value : Nat}
    (rest : Reads (Reader.groups maxGroups left (weight * groupBase) (sum + group * weight)) form
      value) :
    Reads (Reader.groups maxGroups (left + 1) weight sum) (ofNat 8 (groupBase + group) ++ form)
      value := by
  have split := ofNat_group true h
  rw [Bool.toNat_true, Nat.one_mul] at split
  have number : Reads (Reader.bits groupBits) (ofNat groupBits group) group :=
    .bits (by decide) h
  rw [split, Reader.groups, List.append_assoc]
  refine (Reads.bit true).bind (number.bind ?_)
  simp only [if_pos narrow]
  exact rest

/-- The groups of a number are read back, from any weight on that keeps it within 64 bits. -/
theorem reads_groups {left weight value : Nat} (sum : Nat) (few : value < groupBase ^ (left + 1))
    (narrow : value * weight < UInt64.size) :
    Reads (Reader.groups maxGroups (left + 1) weight sum) (form value) (sum + value * weight) := by
  -- Over the groups still allowed: those behind the first make a smaller number of more weight.
  induction left generalizing weight value sum with
  | zero =>
    have last : value < groupBase := by simpa using few
    rw [form, if_pos last]
    exact reads_last maxGroups 0 last narrow
  | succ left ih =>
    by_cases last : value < groupBase
    · rw [form, if_pos last]
      exact reads_last maxGroups (left + 1) last narrow
    · have low : value % groupBase < groupBase := Nat.mod_lt _ (by decide)
      have parts : value = value % groupBase + groupBase * (value / groupBase) :=
        (Nat.mod_add_div value groupBase).symm
      have total : value * weight =
          value % groupBase * weight + value / groupBase * (weight * groupBase) := by
        conv_lhs => rw [parts]
        ring
      have high : value / groupBase < groupBase ^ (left + 1) := by
        rw [Nat.div_lt_iff_lt_mul (by decide), ← Nat.pow_succ]
        exact few
      rw [form, if_neg last, total, ← Nat.add_assoc]
      exact reads_more maxGroups (left + 1) low (by omega)
        (ih (sum + value % groupBase * weight) high (by omega))

theorem reads_number {maxGroups value : Nat} (positive : 0 < maxGroups)
    (few : value < groupBase ^ maxGroups) (narrow : value < UInt64.size) :
    Reads (Reader.number maxGroups) (form value) value := by
  obtain ⟨left, rfl⟩ := Nat.exists_eq_succ_of_ne_zero (Nat.ne_of_gt positive)
  have h : Reads (Reader.groups (left + 1) (left + 1) 1 0) (form value) (0 + value * 1) :=
    reads_groups (left + 1) 0 few (by rwa [Nat.mul_one])
  rwa [Nat.zero_add, Nat.mul_one] at h

end Varint

theorem writeWord_emits (value : UInt64) : Emits (writeWord value) (Varint.form value.toNat) :=
  Varint.emits value.toNat

namespace Reads

theorem varu64 (value : UInt64) : Reads Reader.varu64 (Varint.form value.toNat) value := by
  have few : value.toNat < Varint.groupBase ^ Varint.maxGroups64 :=
    Nat.lt_trans value.toNat_lt (by decide)
  have h := (Varint.reads_number (by decide) few value.toNat_lt).map (f := UInt64.ofNat)
  rwa [UInt64.ofNat_toNat] at h

/-- A number of 32 bits takes at most five groups. -/
theorem varu32_of_lt {value : Nat} (h : value < UInt32.size) :
    Reads Reader.varu32 (Varint.form value) (UInt32.ofNat value) := by
  have few : value < Varint.groupBase ^ Varint.maxGroups32 := Nat.lt_trans h (by decide)
  have number := Varint.reads_number (by decide) few (Nat.lt_trans h (by decide))
  rw [← List.append_nil (Varint.form value), Reader.varu32]
  refine number.bind ?_
  rw [if_pos h]
  exact pure _

theorem varu32 (value : UInt32) : Reads Reader.varu32 (Varint.form value.toNat) value := by
  have h := varu32_of_lt value.toNat_lt
  rwa [UInt32.ofNat_toNat] at h

end Reads

namespace Varint

theorem zigzag_lt (value : Int32) : zigzag value < UInt32.size := by
  have low := value.le_toInt
  have high := value.toInt_lt
  unfold zigzag UInt32.size
  split <;> omega

theorem unzigzag_zigzag (value : Int32) : unzigzag (zigzag value) = value := by
  have low := value.le_toInt
  have high := value.toInt_lt
  unfold unzigzag zigzag
  by_cases sign : 0 ≤ value.toInt
  · have even : 2 * value.toInt.toNat % 2 = 0 := by omega
    have half : ((2 * value.toInt.toNat / 2 : Nat) : Int) = value.toInt := by omega
    rw [if_pos sign, if_pos even, ← Int32.ofInt_eq_ofNat, half, Int32.ofInt_toInt]
  · have odd : ¬ (2 * (-value.toInt).toNat - 1) % 2 = 0 := by omega
    have half : -((((2 * (-value.toInt).toNat - 1) / 2 : Nat)) : Int) - 1 = value.toInt := by omega
    rw [if_neg sign, if_neg odd, half, Int32.ofInt_toInt]

end Varint

theorem Reads.vars32 (value : Int32) :
    Reads Reader.vars32 (Varint.form (Varint.zigzag value)) value := by
  have h := (Reads.varu32_of_lt (Varint.zigzag_lt value)).map
    (f := fun folded => Varint.unzigzag folded.toNat)
  rwa [UInt32.toNat_ofNat_of_lt' (Varint.zigzag_lt value), Varint.unzigzag_zigzag] at h

def optionalForm {α : Type} (form : α → Bits) : Option α → Bits
  | none => [false]
  | some value => [true] ++ form value

theorem optionalField_emits {α : Type} {write : α → BitBuffer → BitBuffer} {form : α → Bits}
    (h : ∀ value, Emits (write value) (form value)) (value : Option α) :
    Emits (optionalField write value) (optionalForm form value) := by
  cases value with
  | none => exact .flag false
  | some value => exact (Emits.flag true).comp (h value)

theorem writeAll_emits {α : Type} {write : α → BitBuffer → BitBuffer} {form : α → Bits}
    (h : ∀ value, Emits (write value) (form value)) (values : List α) :
    Emits (writeAll write values) (values.flatMap form) := by
  induction values with
  | nil => exact fun buffer => (List.append_nil _).symm
  | cons value rest ih => exact (h value).comp ih

namespace Reads

variable {ε α : Type} {read : Reader ε α} {form : α → Bits}

theorem optional {flag : Reader ε Bool} (hflag : ∀ present, Reads flag [present] present)
    {value : Option α} (h : ∀ a ∈ value, Reads read (form a) a) :
    Reads (Reader.optional flag read) (optionalForm form value) value := by
  cases value with
  | none =>
    rw [optionalForm, ← List.append_nil [false]]
    exact (hflag false).bind (pure none)
  | some a => exact (hflag true).bind (h a rfl).map

theorem count {values : List α} (h : ∀ a ∈ values, Reads read (form a) a) :
    Reads (Reader.count read values.length) (values.flatMap form) values := by
  induction values with
  | nil => exact pure []
  | cons a rest ih =>
    exact (h a List.mem_cons_self).bind (ih fun b hb => h b (List.mem_cons_of_mem a hb)).map

end Reads

def Vec3.form (v : Vec3) : Bits := v.toList.flatMap Binary64.form

def Quat.form (q : Quat) : Bits := q.toList.flatMap Binary64.form

def Zone.form (zone : Zone) : Bits :=
  Varint.form (Varint.zigzag zone.x) ++ (Varint.form (Varint.zigzag zone.y) ++
    Varint.form (Varint.zigzag zone.z))

def Delta.form (delta : Delta) : Bits :=
  Varint.form delta.netId.toNat ++ (Varint.form delta.version.toNat ++ ([delta.removed] ++
    (optionalForm (fun version => Varint.form version.toNat) delta.baseline ++
    (optionalForm (fun entity => Varint.form entity.toNat) delta.entity ++
    (optionalForm (fun zoneId => Varint.form zoneId.toNat) delta.zoneId ++
    (optionalForm Vec3.form delta.position ++ optionalForm Quat.form delta.rotation))))))

def Frame.form (frame : Frame) : Bits :=
  Varint.form frame.time.toNat ++ (optionalForm Zone.form frame.center ++
    (Varint.form frame.states.length ++ frame.states.flatMap Delta.form))

def MessageKind.form (kind : MessageKind) : Bits :=
  Bits.ofNat 4 formatVersion ++ Bits.ofNat 4 kind.code

def Message.form (message : Message) : Bits :=
  MessageKind.frames.form ++ (Varint.form message.id.toNat ++ (Varint.form message.sentAt.toNat ++
    (Varint.form message.echoed.length ++
    (message.echoed.flatMap (fun id => Varint.form id.toNat) ++
    (Varint.form message.frames.length ++ message.frames.flatMap Frame.form)))))

def Ack.form (id : MessageId) (sentAt : Time) : Bits :=
  MessageKind.ack.form ++ (Varint.form id.toNat ++ Varint.form sentAt.toNat)

section Emits

theorem Vec3.emits (v : Vec3) : Emits v.write v.form := writeAll_emits Emits.double v.toList

theorem Quat.emits (q : Quat) : Emits q.write q.form := writeAll_emits Emits.double q.toList

theorem Zone.emits (zone : Zone) : Emits zone.write zone.form := by
  have h := ((Varint.emits (Varint.zigzag zone.x)).comp (Varint.emits (Varint.zigzag zone.y))).comp
    (Varint.emits (Varint.zigzag zone.z))
  rwa [List.append_assoc] at h

theorem Delta.emits (delta : Delta) : Emits delta.write delta.form := by
  have names := ((Varint.emits delta.netId.toNat).comp (writeWord_emits delta.version)).comp
    (Emits.flag delta.removed)
  have known := (optionalField_emits writeWord_emits delta.baseline).comp
    (optionalField_emits writeWord_emits delta.entity)
  have place := ((optionalField_emits (fun zoneId => Varint.emits zoneId.toNat) delta.zoneId).comp
    (optionalField_emits Vec3.emits delta.position)).comp
    (optionalField_emits Quat.emits delta.rotation)
  have h := (names.comp known).comp place
  simp only [List.append_assoc] at h
  exact h

theorem Frame.emits (frame : Frame) : Emits frame.write frame.form := by
  have header := (writeWord_emits frame.time).comp (optionalField_emits Zone.emits frame.center)
  have states := (Varint.emits frame.states.length).comp (writeAll_emits Delta.emits frame.states)
  have h := header.comp states
  rwa [List.append_assoc] at h

theorem MessageKind.emits (kind : MessageKind) : Emits kind.write kind.form := by
  intro buffer
  rw [write, BitBuffer.bits_put, BitBuffer.bits_put, List.append_assoc, form]

theorem Message.emits (message : Message) : Emits message.write message.form := by
  have header := (MessageKind.frames.emits.comp (writeWord_emits message.id)).comp
    (writeWord_emits message.sentAt)
  have echoed := (Varint.emits message.echoed.length).comp
    (writeAll_emits writeWord_emits message.echoed)
  have frames := (Varint.emits message.frames.length).comp
    (writeAll_emits Frame.emits message.frames)
  have h := (header.comp echoed).comp frames
  simp only [List.append_assoc] at h
  exact h

theorem Ack.emits (id : MessageId) (sentAt : Time) :
    Emits (Ack.write id sentAt) (form id sentAt) := by
  have h := (MessageKind.ack.emits.comp (writeWord_emits id)).comp (writeWord_emits sentAt)
  rwa [List.append_assoc] at h

end Emits

namespace Reads

theorem vec3 (v : Vec3) : Reads Reader.vec3 v.form v := by
  have h : Reads Reader.vec3 (v.x.form ++ (v.y.form ++ v.z.form)) v :=
    (double v.x).bind ((double v.y).bind (double v.z).map)
  simpa [Vec3.form, Vec3.toList] using h

theorem quat (q : Quat) : Reads Reader.quat q.form q := by
  have h : Reads Reader.quat (q.x.form ++ (q.y.form ++ (q.z.form ++ q.w.form))) q :=
    (double q.x).bind ((double q.y).bind ((double q.z).bind (double q.w).map))
  simpa [Quat.form, Quat.toList] using h

theorem zone (zone : Zone) : Reads Reader.zone zone.form zone :=
  (vars32 zone.x).bind ((vars32 zone.y).bind (vars32 zone.z).map)

theorem delta (delta : Delta) : Reads Reader.delta delta.form delta :=
  (varu32 delta.netId).bind <| (varu64 delta.version).bind <| (bit delta.removed).bind <|
    (optional bit fun version _ => varu64 version).bind <|
    (optional bit fun entity _ => varu64 entity).bind <|
    (optional bit fun zoneId _ => varu32 zoneId).bind <|
    (optional bit fun position _ => vec3 position).bind
    (optional bit fun rotation _ => quat rotation).map

section Limits

variable {limits : Limits} {bound : Bound}

/-- A bit-level reader as part of a message reader. -/
theorem lift {α : Type} {read : Reader BitError α} {form : Bits} {a : α} (h : Reads read form a) :
    Reads (liftM read : Reader DecodeError α) form a :=
  h.mapError DecodeError.malformed

theorem within {actual : Nat} (h : actual ≤ limits.get bound) :
    Reads (Reader.within limits bound actual) [] () := by
  rw [Reader.within, Limits.check_of_le h]
  exact pure ()

theorem countWithin {actual : Nat} (small : actual < Message.countBound)
    (h : actual ≤ limits.get bound) :
    Reads (Reader.countWithin limits bound) (Varint.form actual) actual := by
  have number : (UInt32.ofNat actual).toNat = actual := UInt32.toNat_ofNat_of_lt' small
  rw [← List.append_nil (Varint.form actual), Reader.countWithin]
  refine (varu32_of_lt small).lift.bind ?_
  rw [number]
  exact (within h).map

theorem frame {frame : Frame} (small : frame.states.length < Message.countBound)
    (h : frame.states.length ≤ limits.get .statesPerFrame) :
    Reads (Reader.frame limits) frame.form frame :=
  (varu64 frame.time).lift.bind <|
    ((optional bit fun zone _ => Reads.zone zone).mapError DecodeError.malformed).bind <|
    (countWithin small h).bind
    ((count fun delta _ => Reads.delta delta).mapError DecodeError.malformed).map

end Limits

/-- A reader that looks at the stream first. -/
theorem bind_get {ε β : Type} {next : BitStream → Reader ε β} {form : Bits} {b : β}
    (h : ∀ stream rest, stream.bits = form ++ rest → Reads (next stream) form b) :
    Reads (get >>= next) form b :=
  fun stream rest front => h stream rest front stream rest front

theorem kind (kind : MessageKind) : Reads Reader.kind kind.form kind := by
  have version : Reads (Reader.bits 4) (ofNat 4 formatVersion) formatVersion :=
    bits (by decide) (by decide)
  have code : Reads (Reader.bits 4) (ofNat 4 kind.code) kind.code :=
    bits (by decide) (by cases kind <;> decide)
  have known : MessageKind.ofCode? kind.code = some kind := by cases kind <;> rfl
  refine bind_get fun stream rest front => ?_
  have filled : ¬ stream.isEmpty := by
    have long := congrArg List.length front
    rw [BitStream.length_bits, MessageKind.form, List.append_assoc, List.length_append,
      length_ofNat] at long
    rw [BitStream.isEmpty_iff]
    omega
  simp only [filled]
  refine version.lift.bind ?_
  rw [← List.append_nil (ofNat 4 kind.code)]
  refine code.lift.bind ?_
  rw [known]
  exact pure kind

theorem expectKind (kind : MessageKind) : Reads (Reader.expectKind kind) kind.form () := by
  rw [← List.append_nil kind.form]
  refine (Reads.kind kind).bind ?_
  rw [if_neg (not_not_intro rfl)]
  exact pure ()

end Reads

namespace Reader

theorem finish_eq (stream : BitStream) : finish stream =
    (if 8 ≤ stream.length then throw (.trailingBits stream.length) else pure () :
      Reader DecodeError Unit) stream := rfl

theorem finish_of_lt {stream : BitStream} (h : stream.length < 8) :
    finish stream = .ok () stream := by
  rw [finish_eq, if_neg (Nat.not_le.2 h)]
  rfl

theorem finish_of_le {stream : BitStream} (h : 8 ≤ stream.length) :
    finish stream = .error (.trailingBits stream.length) stream := by
  rw [finish_eq, if_pos h]
  rfl

end Reader

/-- `read` answers `value` to a stream that holds `form` and less than a byte of padding. -/
def ReadsAll {ε α : Type} (read : Reader ε α) (form : Bits) (value : α) : Prop :=
  ∀ stream padding, stream.bits = form ++ padding → padding.length < 8 →
    ∃ left, read stream = .ok value left

theorem Reads.bindAll {ε α β : Type} {read : Reader ε α} {next : α → Reader ε β}
    {form more : Bits} {a : α} {b : β} (h : Reads read form a) (k : ReadsAll (next a) more b) :
    ReadsAll (read >>= next) (form ++ more) b := by
  intro stream padding front short
  obtain ⟨middle, here, front⟩ := h stream (more ++ padding) (by rw [front, List.append_assoc])
  obtain ⟨left, there⟩ := k middle padding front short
  refine ⟨left, ?_⟩
  simp only [Bind.bind, EStateM.bind, here, there]

namespace ReadsAll

theorem finish {α : Type} (a : α) : ReadsAll (Reader.finish >>= fun _ => pure a) [] a := by
  intro stream padding front short
  have ended : stream.length < 8 := by
    rwa [← BitStream.length_bits, front, List.nil_append]
  refine ⟨stream, ?_⟩
  simp only [Bind.bind, EStateM.bind, Reader.finish_of_lt ended]
  rfl

/-- A packet is read back if its bits are the form. -/
theorem run {ε α : Type} {read : Reader ε α} {form : Bits} {a : α} (h : ReadsAll read form a)
    {write : BitBuffer → BitBuffer} (written : Emits write form) :
    read.run (write {}).finish = .ok a := by
  have empty : (BitBuffer.bits {}) = [] := rfl
  have held := (write {}).unpack_finish
  rw [written, empty, List.nil_append, ← BitStream.bits_ofPacket] at held
  obtain ⟨left, answer⟩ := h _ _ held (by rw [List.length_replicate]; omega)
  rw [Reader.run, answer]

end ReadsAll

end AreaReplication
