import AreaReplication.Proofs.Canonical

/-!
# Limits only filter

A receiver with limits reads a packet as one without limits does, until it comes to a number that is
above its limit. So limits refuse packets and change nothing else.
-/
namespace AreaReplication

/-- The numbers by which a packet is judged, in the order in which a receiver comes to them. -/
def Message.measures (message : Message) (packet : Packet) : List (Bound × Nat) :=
  (.messageBytes, packet.length) :: message.counts

namespace Reader

variable {ε ε' α : Type}

theorem length_count {read : Reader ε α} {times : Nat} {stream left : BitStream} {values : List α}
    (h : count read times stream = .ok values left) : values.length = times := by
  induction times generalizing stream values left with
  | zero =>
    cases h
    rfl
  | succ times ih =>
    simp only [count, Bind.bind, EStateM.bind] at h
    split at h
    · split at h
      · next rest _ others =>
        cases h
        exact congrArg Nat.succ (ih others)
      · cases h
    · cases h

theorem ok_of_mapError {restate : ε → ε'} {read : Reader ε α} {stream left : BitStream} {value : α}
    (h : mapError restate read stream = .ok value left) : read stream = .ok value left := by
  unfold mapError at h
  split at h
  · next answer =>
    cases h
    exact answer
  · cases h

end Reader

namespace Limits

/-- The refusal of the first number that is above its limit. -/
def excess? (limits : Limits) (numbers : List (Bound × Nat)) : Option DecodeError :=
  (numbers.find? fun number => limits.get number.1 < number.2).map fun number =>
    .limitExceeded number.1 (limits.get number.1) number.2

/-- The error refuses a number that is indeed above its limit. -/
def Refuses (limits : Limits) (error : DecodeError) : Prop :=
  ∃ bound actual, limits.get bound < actual ∧
    error = .limitExceeded bound (limits.get bound) actual

variable {limits : Limits} {numbers more : List (Bound × Nat)} {error : DecodeError}

theorem excess?_append :
    limits.excess? (numbers ++ more) = (limits.excess? numbers).or (limits.excess? more) := by
  rw [excess?, List.find?_append, Option.map_or]
  rfl

theorem excess?_eq_none_iff :
    limits.excess? numbers = none ↔ ∀ number ∈ numbers, number.2 ≤ limits.get number.1 := by
  simp [excess?]

theorem refuses_of_excess? (h : limits.excess? numbers = some error) : limits.Refuses error := by
  obtain ⟨number, found, rfl⟩ := Option.map_eq_some_iff.1 h
  exact ⟨number.1, number.2, by simpa using List.find?_some found, rfl⟩

theorem refuses_of_excess?_append (h : limits.excess? numbers = some error) :
    limits.excess? (numbers ++ more) = some error := by
  rw [excess?_append, h]
  rfl

theorem excess?_append_of_none (h : limits.excess? numbers = none) :
    limits.excess? (numbers ++ more) = limits.excess? more := by
  rw [excess?_append, h]
  rfl

/-- The answer under limits, by the answer without them and the numbers that were met. -/
inductive Screened {α : Type} (limits : Limits) (meets : List (Bound × Nat) → α → Prop) :
    EStateM.Result DecodeError BitStream α → EStateM.Result DecodeError BitStream α → Prop where
  | passed {numbers value left} (met : meets numbers value)
      (within : limits.excess? numbers = none) :
      Screened limits meets (.ok value left) (.ok value left)
  | refused {numbers value left error rest} (met : meets numbers value)
      (beyond : limits.excess? numbers = some error) :
      Screened limits meets (.ok value left) (.error error rest)
  | failed {error left} : Screened limits meets (.error error left) (.error error left)
  | forestalled {error left refusal rest} (beyond : limits.Refuses refusal) :
      Screened limits meets (.error error left) (.error refusal rest)

/-- `strict` answers as `free` does, but for the numbers that the limits refuse. -/
def Screens {α : Type} (limits : Limits) (free strict : Reader DecodeError α)
    (meets : List (Bound × Nat) → α → Prop) : Prop :=
  ∀ stream, Screened limits meets (free stream) (strict stream)

namespace Screens

variable {α β : Type} {free strict : Reader DecodeError α} {next next' : α → Reader DecodeError β}
  {meets : List (Bound × Nat) → α → Prop} {goal : List (Bound × Nat) → β → Prop}

theorem pure {a : α} (h : meets [] a) :
    Screens limits (Pure.pure a) (Pure.pure a) meets := by
  intro stream
  exact .passed h rfl

/-- A reader that has nothing to compare with a limit. -/
theorem plain (read : Reader DecodeError α) :
    Screens limits read read fun numbers _ => numbers = [] := by
  intro stream
  cases read stream with
  | ok value left => exact .passed rfl rfl
  | error error left => exact .failed

/-- The values that a count announces. -/
theorem counted (read : Reader BitError α) (times : Nat) :
    Screens limits (Reader.mapError DecodeError.malformed (Reader.count read times))
      (Reader.mapError DecodeError.malformed (Reader.count read times))
      fun numbers values => numbers = [] ∧ values.length = times := by
  intro stream
  cases run : Reader.mapError DecodeError.malformed (Reader.count read times) stream with
  | ok values left => exact .passed ⟨rfl, Reader.length_count (Reader.ok_of_mapError run)⟩ rfl
  | error error left => exact .failed

theorem bind (h : Screens limits free strict meets)
    (k : ∀ numbers a, meets numbers a →
      Screens limits (next a) (next' a) fun more b => goal (numbers ++ more) b) :
    Screens limits (free >>= next) (strict >>= next') goal := by
  intro stream
  have first := h stream
  simp only [Bind.bind, EStateM.bind]
  generalize free stream = answer at first ⊢
  generalize strict stream = judged at first ⊢
  cases first with
  | failed => exact .failed
  | forestalled beyond => exact .forestalled beyond
  | @passed numbers a left met within =>
    have second := k numbers a met left
    simp only
    generalize next a left = answer at second ⊢
    generalize next' a left = judged at second ⊢
    cases second with
    | passed met' within' => exact .passed met' ((excess?_append_of_none within).trans within')
    | refused met' beyond' => exact .refused met' ((excess?_append_of_none within).trans beyond')
    | failed => exact .failed
    | forestalled beyond' => exact .forestalled beyond'
  | @refused numbers a left error rest met beyond =>
    -- The rest is read only without limits, and whatever comes of it, the refusal came first.
    have second := k numbers a met left
    simp only
    generalize next a left = answer at second ⊢
    generalize next' a left = judged at second
    cases second with
    | passed met' | refused met' => exact .refused met' (refuses_of_excess?_append beyond)
    | failed | forestalled => exact .forestalled (refuses_of_excess? beyond)

theorem within {bound : Bound} {actual : Nat} (small : actual ≤ unbounded) :
    Screens limits (Reader.within .unlimited bound actual) (Reader.within limits bound actual)
      fun numbers _ => numbers = [(bound, actual)] := by
  have passes : Limits.unlimited.check bound actual = .ok () := check_of_le (by simpa using small)
  intro stream
  rw [Reader.within, Reader.within, passes]
  by_cases large : limits.get bound < actual
  · rw [check_of_lt large]
    exact .refused rfl (by simp [excess?, large])
  · rw [check_of_le (Nat.not_lt.1 large)]
    exact .passed rfl (by simpa [excess?] using large)

theorem countWithin (bound : Bound) :
    Screens limits (Reader.countWithin .unlimited bound) (Reader.countWithin limits bound)
      fun numbers actual => numbers = [(bound, actual)] := by
  refine (plain _).bind fun numbers actual hnone => ?_
  have small : actual.toNat ≤ unbounded := Nat.le_trans (Nat.le_of_lt actual.toNat_lt) (by decide)
  refine (within small).bind fun more _ hmore => pure ?_
  rw [hnone, hmore]
  rfl

/-- Every value of a list is measured by one number. -/
theorem count {number : α → Bound × Nat}
    (h : Screens limits free strict fun numbers a => numbers = [number a]) (times : Nat) :
    Screens limits (Reader.count free times) (Reader.count strict times) fun numbers values =>
      values.length = times ∧ numbers = values.map number := by
  induction times with
  | zero => exact pure ⟨rfl, rfl⟩
  | succ times ih =>
    refine h.bind fun numbers a hfirst => ih.bind fun more rest hrest => pure ?_
    obtain ⟨length, numbered⟩ := hrest
    refine ⟨congrArg Nat.succ length, ?_⟩
    rw [hfirst, numbered, List.append_nil]
    rfl

theorem frame : Screens limits (Reader.frame .unlimited) (Reader.frame limits)
    fun numbers frame => numbers = [(.statesPerFrame, frame.states.length)] := by
  refine (plain _).bind fun _ time htime => (plain _).bind fun _ center hcenter =>
    (countWithin .statesPerFrame).bind fun _ times htimes =>
    (counted Reader.delta times).bind fun _ values hvalues => pure ?_
  rw [htime, hcenter, htimes, hvalues.1, hvalues.2]
  rfl

/-- A message is measured by its counts. -/
theorem message (limits : Limits) :
    Screens limits (Reader.message .unlimited) (Reader.message limits)
      fun numbers message => numbers = message.counts := by
  refine (plain _).bind fun _ _ hkind => (plain _).bind fun _ id hid =>
    (plain _).bind fun _ sentAt hsentAt => (countWithin .acksPerHeader).bind fun _ acks hacks => ?_
  refine (counted Reader.varu64 acks).bind fun _ echoed hechoed =>
    (countWithin .framesPerMessage).bind fun _ frames hframes => ?_
  refine (count frame frames).bind fun _ values hvalues =>
    (plain _).bind fun _ _ hfinish => pure ?_
  rw [hkind, hid, hsentAt, hacks, hechoed.1, ← hechoed.2, hframes, hvalues.2, ← hvalues.1, hfinish]
  simp [Message.counts]

end Screens

/-- The packet and all counts of its message are within the limits. -/
structure Contains (limits : Limits) (packet : Packet) (message : Message) : Prop where
  bytes : packet.length ≤ limits.messageBytes
  acks : message.echoed.length ≤ limits.acksPerHeader
  frames : message.frames.length ≤ limits.framesPerMessage
  states : ∀ frame ∈ message.frames, frame.states.length ≤ limits.statesPerFrame

theorem contains_iff {packet : Packet} {message : Message} :
    limits.Contains packet message ↔ limits.excess? (message.measures packet) = none := by
  rw [excess?_eq_none_iff, Message.measures, List.forall_mem_cons, Message.forall_mem_counts]
  constructor
  · rintro ⟨bytes, acks, frames, states⟩
    exact ⟨bytes, acks, frames, states⟩
  · rintro ⟨bytes, acks, frames, states⟩
    exact ⟨bytes, acks, frames, states⟩

end Limits

namespace Message

variable {limits : Limits} {packet : Packet} {message : Message}

/-- What limits make of a packet that is read without them. -/
theorem decode_of_unlimited (limits : Limits) (decoded : decode .unlimited packet = .ok message) :
    decode limits packet =
      match limits.excess? (message.measures packet) with
      | none => .ok message
      | some error => .error error := by
  by_cases long : limits.messageBytes < packet.length
  · have first : limits.excess? (message.measures packet) =
        some (.limitExceeded .messageBytes limits.messageBytes packet.length) := by
      simp [Limits.excess?, measures, Limits.get, long]
    rw [decode_of_lt long, first]
  · have short : limits.excess? [(.messageBytes, packet.length)] = none := by
      rw [Limits.excess?_eq_none_iff]
      intro number hn
      rw [List.mem_singleton.1 hn]
      exact Nat.not_lt.1 long
    rw [decode_of_le (Nat.not_lt.1 long)]
    rw [measures, ← List.singleton_append, Limits.excess?_append_of_none short]
    obtain ⟨left, run⟩ := Reader.run_eq_ok_iff.1 (decode_eq_ok_iff.1 decoded).2
    have screened := Limits.Screens.message limits (.ofPacket packet)
    rw [run] at screened
    rw [Reader.run]
    generalize Reader.message limits (.ofPacket packet) = judged at screened ⊢
    cases screened with
    | passed met within => rw [← met, within]
    | refused met beyond => rw [← met, beyond]

/-- A packet that is not read without limits is not read with them. -/
theorem decode_of_unlimited_error {error : DecodeError}
    (sized : limits.messageBytes ≤ Limits.unbounded)
    (failed : decode .unlimited packet = .error error) :
    decode limits packet = .error error ∨
      ∃ refusal, limits.Refuses refusal ∧ decode limits packet = .error refusal := by
  by_cases long : limits.messageBytes < packet.length
  · exact .inr ⟨_, ⟨.messageBytes, packet.length, long, rfl⟩, decode_of_lt long⟩
  · have short : packet.length ≤ Limits.unlimited.messageBytes :=
      Nat.le_trans (Nat.not_lt.1 long) sized
    rw [decode_of_le short] at failed
    rw [decode_of_le (Nat.not_lt.1 long)]
    have screened := Limits.Screens.message limits (.ofPacket packet)
    rw [Reader.run] at failed ⊢
    generalize Reader.message .unlimited (.ofPacket packet) = answer at failed screened
    generalize Reader.message limits (.ofPacket packet) = judged at screened ⊢
    cases screened with
    | passed | refused => cases failed
    | failed => exact .inl failed
    | forestalled beyond => exact .inr ⟨_, beyond, rfl⟩

/-- What is read with limits is read without them, and is within the limits. -/
theorem unlimited_of_decode (sized : limits.messageBytes ≤ Limits.unbounded)
    (decoded : decode limits packet = .ok message) :
    decode .unlimited packet = .ok message ∧ limits.Contains packet message := by
  cases read : decode .unlimited packet with
  | error error =>
    rcases decode_of_unlimited_error sized read with same | ⟨refusal, -, refused⟩
    · rw [same] at decoded
      cases decoded
    · rw [refused] at decoded
      cases decoded
  | ok answer =>
    rw [decode_of_unlimited limits read] at decoded
    cases within : limits.excess? (answer.measures packet) with
    | some error =>
      rw [within] at decoded
      cases decoded
    | none =>
      rw [within] at decoded
      cases decoded
      exact ⟨rfl, Limits.contains_iff.2 within⟩

end Message

/-- Limits only filter. A packet that is read without limits is read as the same message if its
length and all counts are within the limits, and is otherwise refused with a number that is not; one
that is not read without limits fails in the same way or is refused. So what is read respects the
limits, and wider limits read it as the same message. -/
theorem limits_only_filter (packet : Packet) (limits : Limits)
    (sized : limits.messageBytes ≤ Limits.unbounded) :
    (∀ message, Message.decode .unlimited packet = .ok message →
      (limits.Contains packet message → Message.decode limits packet = .ok message) ∧
      (¬ limits.Contains packet message → ∃ bound actual, limits.get bound < actual ∧
        Message.decode limits packet =
          .error (.limitExceeded bound (limits.get bound) actual))) ∧
    (∀ error, Message.decode .unlimited packet = .error error →
      Message.decode limits packet = .error error ∨ ∃ bound actual, limits.get bound < actual ∧
        Message.decode limits packet =
          .error (.limitExceeded bound (limits.get bound) actual)) ∧
    (∀ message, Message.decode limits packet = .ok message → limits.Contains packet message) ∧
    ∀ message (wider : Limits), (∀ bound, limits.get bound ≤ wider.get bound) →
      Message.decode limits packet = .ok message → Message.decode wider packet = .ok message := by
  refine ⟨?_, ?_, ?_, ?_⟩
  · intro message decoded
    have judged := Message.decode_of_unlimited limits decoded
    constructor
    · intro contains
      rwa [Limits.contains_iff.1 contains] at judged
    · intro outside
      obtain ⟨error, beyond⟩ := Option.ne_none_iff_exists'.1 (outside ∘ Limits.contains_iff.2)
      obtain ⟨bound, actual, large, rfl⟩ := Limits.refuses_of_excess? beyond
      rw [beyond] at judged
      exact ⟨bound, actual, large, judged⟩
  · intro error failed
    apply (Message.decode_of_unlimited_error sized failed).imp_right
    rintro ⟨refusal, ⟨bound, actual, large, rfl⟩, refused⟩
    exact ⟨bound, actual, large, refused⟩
  · intro message decoded
    exact (Message.unlimited_of_decode sized decoded).2
  · intro message wider raised decoded
    obtain ⟨read, bytes, acks, frames, states⟩ := Message.unlimited_of_decode sized decoded
    have contains : wider.Contains packet message := by
      refine ⟨Nat.le_trans bytes (raised .messageBytes), Nat.le_trans acks (raised .acksPerHeader),
        Nat.le_trans frames (raised .framesPerMessage), ?_⟩
      intro frame hf
      exact Nat.le_trans (states frame hf) (raised .statesPerFrame)
    rw [Message.decode_of_unlimited wider read, Limits.contains_iff.1 contains]

/-- Limits that allow for no frame refuse a message of one; the small ones read it, and so do those
that allow for one more frame than they. -/
theorem limits_only_filter_stretched :
    (∃ bound actual, Limits.get ⟨4096, 0, 128, 64⟩ bound < actual ∧
      Message.decode ⟨4096, 0, 128, 64⟩ stretched =
        .error (.limitExceeded bound (Limits.get ⟨4096, 0, 128, 64⟩ bound) actual)) ∧
    Limits.small.messageBytes ≤ Limits.unbounded ∧
    (∀ bound, Limits.small.get bound ≤ Limits.get ⟨4096, 17, 128, 64⟩ bound) ∧
    Message.decode .small stretched = .ok { id := 0, sentAt := 0, frames := [{ time := 1 }] } ∧
    Message.decode ⟨4096, 17, 128, 64⟩ stretched =
      .ok { id := 0, sentAt := 0, frames := [{ time := 1 }] } := by
  have free : Message.decode .unlimited stretched =
      .ok { id := 0, sentAt := 0, frames := [{ time := 1 }] } := by decide +kernel
  have sized : Limits.small.messageBytes ≤ Limits.unbounded := by decide
  have contains : Limits.small.Contains stretched
      { id := 0, sentAt := 0, frames := [{ time := 1 }] } := by constructor <;> decide
  have raised : ∀ bound, Limits.small.get bound ≤ Limits.get ⟨4096, 17, 128, 64⟩ bound := by
    intro bound
    cases bound <;> decide
  obtain ⟨judged, -, -, widened⟩ := limits_only_filter stretched .small sized
  have read := (judged _ free).1 contains
  refine ⟨?_, sized, raised, read, widened _ _ raised read⟩
  have narrow := (limits_only_filter stretched ⟨4096, 0, 128, 64⟩ (by decide)).1 _ free
  apply narrow.2
  intro outside
  exact absurd outside.frames (by decide)

end AreaReplication
