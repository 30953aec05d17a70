import AreaReplication.Proofs.Groups

/-!
# Numbers of variable length are read exactly

Wherever in a packet a number starts, it is read if and only if its groups are complete, not too
many, and add up to a number of the type that is asked for. The answer is that sum: no bit of it is
lost where it is kept in words of 64 bits. Whether or not there is a number, reading goes on behind
the start and never past the end.
-/
namespace AreaReplication

open Bits

namespace Reader

open Varint

def leftover {ε α : Type} : EStateM.Result ε BitStream α → BitStream
  | .ok _ left | .error _ left => left

/-- Whatever `read` answers, it leaves the end of what there was. -/
def Trails {ε α : Type} (read : Reader ε α) : Prop :=
  ∀ stream, (leftover (read stream)).bits <:+ stream.bits

namespace Trails

variable {ε α β : Type} {read : Reader ε α} {next : α → Reader ε β}

theorem pure (a : α) : Trails (Pure.pure a : Reader ε α) := fun _ => List.suffix_rfl

theorem throw (error : ε) : Trails (MonadExcept.throw error : Reader ε α) :=
  fun _ => List.suffix_rfl

theorem bind (h : Trails read) (k : ∀ a, Trails (next a)) : Trails (read >>= next) := by
  intro stream
  have here := h stream
  cases run : read stream with
  | error error left =>
    rw [bind_of_error run]
    rwa [run] at here
  | ok a left =>
    rw [run] at here
    rw [bind_of_ok run]
    exact (k a left).trans here

theorem bits (width : Nat) : Trails (Reader.bits width) := by
  intro stream
  unfold Reader.bits
  by_cases wide : maxFieldWidth < width
  · rw [if_pos wide]
    exact List.suffix_rfl
  · rw [if_neg wide]
    by_cases enough : width ≤ stream.length
    · obtain ⟨left, taken, behind⟩ := BitStream.take?_eq enough
      rw [taken, leftover, behind]
      exact List.drop_suffix _ _
    · cases taken : stream.take? width with
      | none => exact List.suffix_rfl
      | some answer =>
        have length := BitStream.take?_length taken
        omega

theorem bit : Trails Reader.bit := (bits 1).bind fun _ => pure _

theorem group : Trails Reader.group := bit.bind fun _ => (bits groupBits).bind fun _ => pure _

theorem groups (maxGroups left weight sum : Nat) :
    Trails (Reader.groups maxGroups left weight sum) := by
  induction left generalizing weight sum with
  | zero => exact throw _
  | succ left ih =>
    rw [groups_succ]
    refine group.bind ?_
    rintro ⟨more, digit⟩
    by_cases narrow : digit * weight < UInt64.size
    · simp only [if_pos narrow]
      cases more with
      | false => exact pure _
      | true => exact ih _ _
    · simp only [if_neg narrow]
      exact throw _

theorem varu64 : Trails Reader.varu64 := (groups _ _ _ _).bind fun _ => pure _

theorem varu32 : Trails Reader.varu32 := by
  refine (groups _ _ _ _).bind fun value => ?_
  by_cases small : value < UInt32.size
  · rw [if_pos small]
    exact pure _
  · rw [if_neg small]
    exact throw _

theorem vars32 : Trails Reader.vars32 := varu32.bind fun _ => pure _

end Trails

section Numbers

variable {stream left : BitStream}

theorem varu64_eq_ok_iff {word : UInt64} : varu64 stream = .ok word left ↔
    number maxGroups64 stream = .ok word.toNat left := by
  unfold varu64
  rw [map_eq_ok_iff]
  constructor
  · rintro ⟨sum, run, rfl⟩
    rwa [UInt64.toNat_ofNat_of_lt' (number_lt (by decide) run)]
  · intro run
    exact ⟨word.toNat, run, UInt64.ofNat_toNat⟩

theorem varu32_eq_ok_iff {word : UInt32} : varu32 stream = .ok word left ↔
    number maxGroups32 stream = .ok word.toNat left := by
  unfold varu32
  rw [bind_eq_ok_iff]
  constructor
  · rintro ⟨sum, middle, run, answer⟩
    by_cases small : sum < UInt32.size
    · rw [if_pos small] at answer
      cases answer
      rwa [UInt32.toNat_ofNat_of_lt' small]
    · rw [if_neg small] at answer
      cases answer
  · intro run
    refine ⟨word.toNat, left, run, ?_⟩
    rw [if_pos word.toNat_lt, UInt32.ofNat_toNat]
    rfl

theorem vars32_eq_ok_iff {signed : Int32} : vars32 stream = .ok signed left ↔
    ∃ folded, varu32 stream = .ok folded left ∧ unzigzag folded.toNat = signed := by
  unfold vars32
  exact map_eq_ok_iff

theorem vars32_eq_ok_iff_number {signed : Int32} : vars32 stream = .ok signed left ↔
    number maxGroups32 stream = .ok (zigzag signed) left := by
  rw [vars32_eq_ok_iff]
  constructor
  · rintro ⟨folded, run, rfl⟩
    rw [zigzag_unzigzag folded.toNat_lt]
    exact varu32_eq_ok_iff.1 run
  · intro run
    have fits := UInt32.toNat_ofNat_of_lt' (zigzag_lt signed)
    exact ⟨_, varu32_eq_ok_iff.2 (by rwa [fits]), by rw [fits, unzigzag_zigzag]⟩

end Numbers

/-- From bit `start` of `packet` on stand the groups `digits` of a number that is below `bound` and
has at most `maxGroups` groups. -/
structure Holds (packet : Packet) (start maxGroups bound : Nat) (digits : List Nat) : Prop where
  spelled : Spells ((unpack packet).drop start) digits
  few : digits.length ≤ maxGroups
  fits : Nat.ofDigits groupBase digits < bound

/-- What is answered to a number that starts at bit `start` of `packet`: the number if one is there,
and an error if not. The next bit is the one behind the last group, and in no case one before the
start or past the end of the packet. -/
structure Answers {α : Type} (packet : Packet) (start maxGroups bound : Nat) (toNat : α → Nat)
    (answer : EStateM.Result BitError BitStream α) : Prop where
  accepts : ∀ value stop, (∃ left, answer = .ok value left ∧ left.StandsAt packet stop) ↔
    ∃ digits, Holds packet start maxGroups bound digits ∧
      toNat value = Nat.ofDigits groupBase digits ∧ stop = start + 8 * digits.length
  refuses : (∃ error left, answer = .error error left) ↔
    ¬ ∃ digits, Holds packet start maxGroups bound digits
  inside : ∃ stop, start ≤ stop ∧ (leftover answer).StandsAt packet stop

theorem Trails.inside {α : Type} {read : Reader BitError α} (h : Trails read) {packet : Packet}
    {start : Nat} {stream : BitStream} (stands : stream.StandsAt packet start) :
    ∃ stop, start ≤ stop ∧ (leftover (read stream)).StandsAt packet stop := by
  have dropped := List.suffix_iff_eq_drop.1 (h stream)
  refine ⟨_, Nat.le_add_right _ _, stands.skip ?_ dropped⟩
  rw [BitStream.length_bits]
  exact Nat.sub_le _ _

/-- A reader whose answers are the numbers below a bound. -/
theorem Answers.of_number {α : Type} {read : Reader BitError α} {toNat : α → Nat}
    {packet : Packet} {start maxGroups bound : Nat} {stream : BitStream} (few : maxGroups ≤ 10)
    (narrow : bound ≤ UInt64.size) (lt : ∀ value, toNat value < bound)
    (onto : ∀ n < bound, ∃ value, toNat value = n) (trails : Trails read)
    (run : ∀ value left,
      read stream = .ok value left ↔ number maxGroups stream = .ok (toNat value) left)
    (stands : stream.StandsAt packet start) :
    Answers packet start maxGroups bound toNat (read stream) := by
  have accepts : ∀ value stop,
      (∃ left, read stream = .ok value left ∧ left.StandsAt packet stop) ↔
        ∃ digits, Holds packet start maxGroups bound digits ∧
          toNat value = Nat.ofDigits groupBase digits ∧ stop = start + 8 * digits.length := by
    intro value stop
    constructor
    · rintro ⟨left, answer, there⟩
      obtain ⟨digits, spelled, short, -, total, behind⟩ :=
        (number_eq_ok_iff few).1 ⟨left, (run value left).1 answer, rfl⟩
      rw [Nat.zero_add, Nat.one_mul] at total
      have enough := spelled.length_le
      rw [BitStream.length_bits] at enough
      have stopped := (stands.skip enough behind).length_add
      have := there.length_add
      rw [stands.ahead] at spelled
      exact ⟨digits, ⟨spelled, short, by rw [← total]; exact lt value⟩, total, by omega⟩
    · rintro ⟨digits, ⟨spelled, short, fits⟩, total, rfl⟩
      rw [← stands.ahead] at spelled
      have enough := spelled.length_le
      rw [BitStream.length_bits] at enough
      have sum : 0 + 1 * Nat.ofDigits groupBase digits = Nat.ofDigits groupBase digits := by
        rw [Nat.zero_add, Nat.one_mul]
      obtain ⟨left, answer, behind⟩ := (number_eq_ok_iff few).2
        ⟨digits, spelled, short, by rw [sum]; omega, total.trans sum.symm, rfl⟩
      exact ⟨left, (run value left).2 answer, stands.skip enough behind⟩
  have inside := trails.inside stands
  refine ⟨accepts, ⟨?_, ?_⟩, inside⟩
  · rintro ⟨error, left, failed⟩ ⟨digits, held⟩
    obtain ⟨value, total⟩ := onto _ held.fits
    obtain ⟨left', answer, -⟩ := (accepts value _).2 ⟨digits, held, total, rfl⟩
    rw [failed] at answer
    cases answer
  · intro none
    cases answer : read stream with
    | error error left => exact ⟨error, left, rfl⟩
    | ok value left =>
      obtain ⟨stop, -, there⟩ := inside
      rw [answer] at there
      obtain ⟨digits, held, -⟩ := (accepts value stop).1 ⟨left, answer, there⟩
      exact absurd ⟨digits, held⟩ none

section Words

/-- The groups put together in words of 64 bits. A group is shifted to its place, and refused if it
does not come back from there. -/
def groupsInWords (maxGroups : Nat) :
    (left : Nat) → (shift value : UInt64) → Reader BitError UInt64
  | 0, _, _ => throw (.overlongNumber maxGroups)
  | left + 1, shift, value => do
    let (more, digit) ← group
    let placed := UInt64.ofNat digit <<< shift
    if shift < 64 ∧ placed >>> shift = UInt64.ofNat digit then
      if more then
        groupsInWords maxGroups left (shift + 7) (value ||| placed)
      else
        return value ||| placed
    else
      throw (.overlongNumber maxGroups)

def numberInWords (maxGroups : Nat) : Reader BitError UInt64 :=
  groupsInWords maxGroups maxGroups 0 0

variable {i sum digit : Nat}

theorem toNat_digit (small : digit < groupBase) : (UInt64.ofNat digit).toNat = digit :=
  UInt64.toNat_ofNat_of_lt' (Nat.lt_trans small (by decide))

theorem toNat_placed (inside : i ≤ 9) (small : digit < groupBase) :
    (UInt64.ofNat digit <<< UInt64.ofNat (7 * i)).toNat =
      digit * groupBase ^ i % UInt64.size := by
  rw [UInt64.toNat_shiftLeft, toNat_shift (by omega), toNat_digit small, Nat.shiftLeft_eq,
    groupBase_pow]

/-- A group comes back from its place exactly if that is within the word. -/
theorem placed_back_iff (inside : i ≤ 9) (small : digit < groupBase) :
    UInt64.ofNat digit <<< UInt64.ofNat (7 * i) >>> UInt64.ofNat (7 * i) = UInt64.ofNat digit ↔
      digit * groupBase ^ i < UInt64.size := by
  rw [← UInt64.toNat_inj, UInt64.toNat_shiftRight, toNat_shift (by omega),
    toNat_placed inside small, toNat_digit small, Nat.shiftRight_eq_div_pow, groupBase_pow]
  constructor
  · intro back
    by_contra beyond
    have cut : digit * 2 ^ (7 * i) % UInt64.size < digit * 2 ^ (7 * i) :=
      Nat.lt_of_lt_of_le (Nat.mod_lt _ (by decide)) (Nat.not_lt.1 beyond)
    rw [← Nat.div_lt_iff_lt_mul (Nat.two_pow_pos _), back] at cut
    exact Nat.lt_irrefl _ cut
  · intro narrow
    rw [Nat.mod_eq_of_lt narrow, Nat.mul_div_cancel _ (Nat.two_pow_pos _)]

/-- In a word whose bits from its place on are clear, a group is added by setting its bits. -/
theorem or_placed (inside : i ≤ 9) (small : digit < groupBase) (low : sum < groupBase ^ i)
    (narrow : digit * groupBase ^ i < UInt64.size) :
    UInt64.ofNat sum ||| UInt64.ofNat digit <<< UInt64.ofNat (7 * i) =
      UInt64.ofNat (sum + digit * groupBase ^ i) := by
  have total := sum_lt_of_narrow inside low narrow
  have word : (UInt64.ofNat sum).toNat = sum := UInt64.toNat_ofNat_of_lt' (by omega)
  rw [← UInt64.toNat_inj, UInt64.toNat_or, toNat_placed inside small, Nat.mod_eq_of_lt narrow,
    UInt64.toNat_ofNat_of_lt' total, word]
  rw [groupBase_pow] at low ⊢
  rw [Nat.or_comm, Nat.mul_comm, ← Nat.two_pow_add_eq_or_of_lt low, Nat.add_comm]

theorem groupsInWords_eq (maxGroups : Nat) {left : Nat} {stream : BitStream}
    (room : i + left ≤ 10) (low : sum < groupBase ^ i) :
    groupsInWords maxGroups left (UInt64.ofNat (7 * i)) (UInt64.ofNat sum) stream =
      (do return UInt64.ofNat (← groups maxGroups left (groupBase ^ i) sum)) stream := by
  induction left generalizing i sum stream with
  | zero => rfl
  | succ left ih =>
    rw [groupsInWords, groups_succ, bind_assoc]
    rcases group_cases stream with ⟨-, error, rest, run⟩ | ⟨more, digit, middle, small, -, run⟩
    · rw [bind_of_error run, bind_of_error run]
    · rw [bind_of_ok run, bind_of_ok run]
      have inside : i ≤ 9 := by omega
      have place : UInt64.ofNat (7 * i) < 64 := by
        have low : 7 * i < 64 := by omega
        rwa [UInt64.lt_iff_toNat_lt, UInt64.toNat_ofNat_of_lt' (Nat.lt_trans low (by decide))]
      simp only [place, true_and, placed_back_iff inside small]
      by_cases narrow : digit * groupBase ^ i < UInt64.size
      · have next : UInt64.ofNat (7 * i) + 7 = UInt64.ofNat (7 * (i + 1)) := by
          rw [Nat.mul_succ, UInt64.ofNat_add]
          rfl
        simp only [if_pos narrow, or_placed inside small low narrow, next]
        cases more with
        | false => rfl
        | true =>
          rw [← Nat.pow_succ]
          exact ih (by omega) (below_next_place small low)
      · simp only [if_neg narrow]
        rfl

theorem numberInWords_eq {maxGroups : Nat} (few : maxGroups ≤ 10) (stream : BitStream) :
    numberInWords maxGroups stream = (do return UInt64.ofNat (← number maxGroups)) stream := by
  have h : groupsInWords maxGroups maxGroups (UInt64.ofNat (7 * 0)) (UInt64.ofNat 0) stream =
      (do return UInt64.ofNat (← groups maxGroups maxGroups (groupBase ^ 0) 0)) stream :=
    groupsInWords_eq maxGroups (by omega) (by decide)
  rwa [Nat.pow_zero] at h

end Words

end Reader

open Reader Varint

/-- Wherever a number starts in a packet, the three readers of numbers answer it exactly if it is
complete, not too long and in range; a signed number is the fold of an unsigned one undone, and that
is one to one. A reader that keeps its sum in words of 64 bits loses no bit of it. -/
theorem numbers_read_exactly {packet : Packet} {start : Nat} {stream : BitStream}
    (stands : stream.StandsAt packet start) :
    Answers packet start 10 (2 ^ 64) UInt64.toNat (varu64 stream) ∧
    Answers packet start 5 (2 ^ 32) UInt32.toNat (varu32 stream) ∧
    Answers packet start 5 (2 ^ 32) zigzag (vars32 stream) ∧
    (∀ signed left, vars32 stream = .ok signed left ↔
      ∃ folded, varu32 stream = .ok folded left ∧ unzigzag folded.toNat = signed) ∧
    (∀ signed, unzigzag (zigzag signed) = signed) ∧
    Function.Bijective (fun folded : UInt32 => unzigzag folded.toNat) ∧
    ∀ maxGroups ≤ 10,
      numberInWords maxGroups stream = (do return UInt64.ofNat (← number maxGroups)) stream := by
  refine ⟨?_, ?_, ?_, fun _ _ => vars32_eq_ok_iff, unzigzag_zigzag, ⟨?_, ?_⟩, ?_⟩
  · refine .of_number (Nat.le_refl 10) (Nat.le_refl _) UInt64.toNat_lt ?_ .varu64 ?_ stands
    · intro n small
      exact ⟨UInt64.ofNat n, UInt64.toNat_ofNat_of_lt' small⟩
    · intro value left
      exact varu64_eq_ok_iff
  · refine .of_number (by decide) (by decide) UInt32.toNat_lt ?_ .varu32 ?_ stands
    · intro n small
      exact ⟨UInt32.ofNat n, UInt32.toNat_ofNat_of_lt' small⟩
    · intro value left
      exact varu32_eq_ok_iff
  · refine .of_number (by decide) (by decide) zigzag_lt ?_ .vars32 ?_ stands
    · intro n small
      exact ⟨unzigzag n, zigzag_unzigzag small⟩
    · intro value left
      exact vars32_eq_ok_iff_number
  · intro one other same
    have folds := congrArg zigzag same
    simp only [zigzag_unzigzag (UInt32.toNat_lt _)] at folds
    exact UInt32.toNat_inj.1 folds
  · intro signed
    refine ⟨UInt32.ofNat (zigzag signed), ?_⟩
    simp only [UInt32.toNat_ofNat_of_lt' (zigzag_lt signed), unzigzag_zigzag]
  · intro maxGroups few
    exact numberInWords_eq few stream

/-- Behind the first four bits stands a five, stretched by a group of zeros. -/
theorem numbers_read_exactly_inside :
    (⟨4, 0x08, [0x50, 0x00], by decide⟩ : BitStream).StandsAt [0x08, 0x50, 0x00] 4 ∧
    ∃ left, varu64 ⟨4, 0x08, [0x50, 0x00], by decide⟩ = .ok 5 left ∧
      left.StandsAt [0x08, 0x50, 0x00] 20 := by
  have stands : (⟨4, 0x08, [0x50, 0x00], by decide⟩ : BitStream).StandsAt [0x08, 0x50, 0x00] 4 :=
    ⟨by decide, by decide⟩
  have front : (unpack [0x08, 0x50, 0x00]).drop 4 = true :: (ofNat groupBits 5 ++
      false :: (ofNat groupBits 0 ++ List.replicate 4 false)) := by decide
  have spelled : Spells ((unpack [0x08, 0x50, 0x00]).drop 4) [5, 0] := by
    rw [front]
    exact .more (by decide) (.last (by decide))
  exact ⟨stands, ((numbers_read_exactly stands).1.accepts 5 20).2
    ⟨[5, 0], ⟨spelled, by decide, by decide⟩, by decide, by decide⟩⟩

end AreaReplication
