import AreaReplication.Proofs.Canonical
import Mathlib.Data.Nat.Digits.Defs

/-!
# Groups of a number

The groups of a number are its digits to the base 128. Read from any place on, they are put together
exactly if they end in time and their sum stays within 64 bits; it is enough to look at each group
alone for that, as none reaches into the place of another.
-/
namespace AreaReplication

open Bits

theorem Bits.ofNat_toNat (bits : Bits) : ofNat bits.length (toNat bits) = bits := by
  induction bits with
  | nil => rfl
  | cons bit rest ih =>
    have first : toNat [bit] = bit.toNat := by simp [toNat]
    have low : toNat rest % 2 ^ rest.length = toNat rest := Nat.mod_eq_of_lt (toNat_lt rest)
    have split := ofNat_append 1 rest.length bit.toNat (toNat rest)
    rw [low, ih] at split
    rw [← List.singleton_append, toNat_append, first, List.length_append, List.length_singleton,
      split]
    cases bit <;> rfl

namespace Varint

/-- The bits start with the groups `digits`, least significant first: before each stands a bit that
is set unless it is the last. -/
inductive Spells : Bits → List Nat → Prop where
  | last {digit : Nat} {rest : Bits} (small : digit < groupBase) :
      Spells (false :: (ofNat groupBits digit ++ rest)) [digit]
  | more {digit : Nat} {rest : Bits} {digits : List Nat} (small : digit < groupBase)
      (next : Spells rest digits) :
      Spells (true :: (ofNat groupBits digit ++ rest)) (digit :: digits)

namespace Spells

variable {bits rest : Bits} {digit : Nat} {digits : List Nat}

theorem length_pos (h : Spells bits digits) : 0 < digits.length := by
  cases h <;> exact Nat.succ_pos _

theorem length_le (h : Spells bits digits) : 8 * digits.length ≤ bits.length := by
  have width : groupBits = 7 := rfl
  induction h with
  | last => simp only [List.length_cons, List.length_nil, List.length_append, length_ofNat]; omega
  | more _ _ ih => simp only [List.length_cons, List.length_append, length_ofNat]; omega

theorem iff_group (more : Bool) (small : digit < groupBase) :
    Spells (more :: (ofNat groupBits digit ++ rest)) digits ↔
      (more = false ∧ digits = [digit]) ∨
        (more = true ∧ ∃ higher, digits = digit :: higher ∧ Spells rest higher) := by
  -- A group is told by its seven bits.
  have told : ∀ {other : Nat} {behind : Bits}, other < groupBase →
      ofNat groupBits digit ++ rest = ofNat groupBits other ++ behind →
      digit = other ∧ rest = behind := by
    intro other behind small' same
    obtain ⟨here, there⟩ := List.append_inj same (by rw [length_ofNat, length_ofNat])
    have number := congrArg toNat here
    rw [toNat_ofNat, toNat_ofNat, Nat.mod_eq_of_lt (by exact small),
      Nat.mod_eq_of_lt (by exact small')] at number
    exact ⟨number, there⟩
  constructor
  · intro h
    generalize form : more :: (ofNat groupBits digit ++ rest) = bits at h
    cases h with
    | last small' =>
      obtain ⟨rfl, same⟩ := List.cons.inj form
      obtain ⟨rfl, -⟩ := told small' same
      exact .inl ⟨rfl, rfl⟩
    | more small' next =>
      obtain ⟨rfl, same⟩ := List.cons.inj form
      obtain ⟨rfl, rfl⟩ := told small' same
      exact .inr ⟨rfl, _, rfl, next⟩
  · rintro (⟨rfl, rfl⟩ | ⟨rfl, higher, rfl, next⟩)
    · exact .last small
    · exact .more small next

end Spells

end Varint

namespace Reader

open Varint

section Bind

variable {ε α β : Type} {read : Reader ε α} {next : α → Reader ε β} {stream middle left : BitStream}

theorem bind_of_ok {a : α} (run : read stream = .ok a middle) :
    (read >>= next) stream = next a middle := by
  simp only [Bind.bind, EStateM.bind, run]

theorem bind_of_error {error : ε} (run : read stream = .error error middle) :
    (read >>= next) stream = .error error middle := by
  simp only [Bind.bind, EStateM.bind, run]

theorem bind_eq_ok_iff {answer : β} : (read >>= next) stream = .ok answer left ↔
    ∃ a middle, read stream = .ok a middle ∧ next a middle = .ok answer left := by
  constructor
  · intro h
    cases run : read stream with
    | ok a middle => exact ⟨a, middle, rfl, by rwa [bind_of_ok run] at h⟩
    | error error middle =>
      rw [bind_of_error run] at h
      cases h
  · rintro ⟨a, middle, run, h⟩
    rwa [bind_of_ok run]

theorem map_eq_ok_iff {f : α → β} {answer : β} :
    (do return f (← read)) stream = .ok answer left ↔
      ∃ a, read stream = .ok a left ∧ f a = answer := by
  rw [bind_eq_ok_iff]
  constructor
  · rintro ⟨a, middle, run, ⟨⟩⟩
    exact ⟨a, run, rfl⟩
  · rintro ⟨a, run, rfl⟩
    exact ⟨a, left, run, rfl⟩

end Bind

/-- The next group and the bit before it. -/
def group : Reader BitError (Bool × Nat) := do
  let more ← bit
  let digit ← bits groupBits
  return (more, digit)

theorem groups_succ (maxGroups left weight sum : Nat) :
    groups maxGroups (left + 1) weight sum = (do
      let (more, digit) ← group
      if digit * weight < UInt64.size then
        if more then
          groups maxGroups left (weight * groupBase) (sum + digit * weight)
        else
          return sum + digit * weight
      else
        throw (.overlongNumber maxGroups)) := by
  simp only [groups, group, bind_assoc, pure_bind]

theorem reads_group {digit : Nat} (more : Bool) (small : digit < groupBase) :
    Reads group (more :: ofNat groupBits digit) (more, digit) := by
  have number : Reads (bits groupBits) (ofNat groupBits digit) digit := .bits (by decide) small
  exact (Reads.bit more).bind number.map

theorem spends_group : Spends group fun spent _ => spent = 8 := by
  refine Spends.bit.bind fun one more hone => (Spends.bits groupBits).bind fun seven digit h => ?_
  refine .pure ?_
  rw [hone, h.1]
  rfl

/-- The next eight bits are a group behind its bit, or fewer are left. -/
theorem group_cases (stream : BitStream) :
    (stream.length < 8 ∧ ∃ error left, group stream = .error error left) ∨
      ∃ more digit left, digit < groupBase ∧
        stream.bits = more :: (ofNat groupBits digit ++ left.bits) ∧
        group stream = .ok (more, digit) left := by
  by_cases short : stream.length < 8
  · refine .inl ⟨short, ?_⟩
    cases run : group stream with
    | error error left => exact ⟨error, left, rfl⟩
    | ok next left =>
      obtain ⟨spent, length, eight⟩ := spends_group stream next left run
      omega
  · right
    rw [← BitStream.length_bits] at short
    obtain ⟨more, tail, front⟩ := List.exists_cons_of_ne_nil
      (List.ne_nil_of_length_pos (Nat.lt_of_lt_of_le (by decide) (Nat.not_lt.1 short)))
    have enough : groupBits ≤ tail.length := by
      rw [front, List.length_cons] at short
      exact Nat.le_of_succ_le_succ (Nat.not_lt.1 short)
    have width : (tail.take groupBits).length = groupBits := List.length_take_of_le enough
    have small : toNat (tail.take groupBits) < groupBase := by
      have bound := toNat_lt (tail.take groupBits)
      rwa [width] at bound
    have digit : ofNat groupBits (toNat (tail.take groupBits)) = tail.take groupBits := by
      have back := ofNat_toNat (tail.take groupBits)
      rwa [width] at back
    have form : stream.bits = (more :: ofNat groupBits (toNat (tail.take groupBits))) ++
        tail.drop groupBits := by
      rw [digit, List.cons_append, List.take_append_drop, front]
    obtain ⟨left, run, behind⟩ := reads_group more small stream _ form
    exact ⟨more, _, left, small, by rw [form, behind]; rfl, run⟩

section Places

variable {i sum digit : Nat}

theorem groupBase_pow (i : Nat) : groupBase ^ i = 2 ^ (7 * i) := (Nat.pow_mul 2 7 i).symm

theorem below_next_place (small : digit < groupBase) (low : sum < groupBase ^ i) :
    sum + digit * groupBase ^ i < groupBase ^ (i + 1) := by
  have place := Nat.mul_le_mul_right (groupBase ^ i) (Nat.succ_le_of_lt small)
  rw [Nat.succ_mul] at place
  rw [Nat.pow_succ, Nat.mul_comm (groupBase ^ i)]
  omega

/-- A group whose place is within the word is not carried out of it by the groups below. -/
theorem sum_lt_of_narrow (inside : i ≤ 9) (low : sum < groupBase ^ i)
    (narrow : digit * groupBase ^ i < UInt64.size) : sum + digit * groupBase ^ i < UInt64.size := by
  have places : UInt64.size = 2 ^ (64 - 7 * i) * groupBase ^ i := by
    rw [groupBase_pow, ← Nat.pow_add, Nat.sub_add_cancel (by omega)]
  rw [places] at narrow ⊢
  have room := Nat.mul_le_mul_right (groupBase ^ i)
    (Nat.succ_le_of_lt (Nat.lt_of_mul_lt_mul_right narrow))
  rw [Nat.succ_mul] at room
  omega

end Places

/-- At the front of `bits` stand at most `left` groups that carry `sum` on to `value`, the first of
them of the given weight, and `behind` comes after them. -/
def Adds (bits : Bits) (left weight sum value : Nat) (behind : Bits) : Prop :=
  ∃ digits, Spells bits digits ∧ digits.length ≤ left ∧
    sum + weight * Nat.ofDigits groupBase digits < UInt64.size ∧
    value = sum + weight * Nat.ofDigits groupBase digits ∧
    behind = bits.drop (8 * digits.length)

namespace Adds

variable {bits behind rest : Bits} {left weight sum value digit : Nat}

theorem sum_lt (h : Adds bits left weight sum value behind) : sum < UInt64.size := by
  obtain ⟨digits, -, -, fits, -⟩ := h
  omega

theorem not_zero : ¬ Adds bits 0 weight sum value behind := by
  rintro ⟨digits, spelled, few, -⟩
  have := spelled.length_pos
  omega

theorem long (h : Adds bits left weight sum value behind) : 8 ≤ bits.length := by
  obtain ⟨digits, spelled, -⟩ := h
  have := spelled.length_pos
  have := spelled.length_le
  omega

theorem drop_group (more : Bool) (digit count : Nat) (rest : Bits) :
    (more :: (ofNat groupBits digit ++ rest)).drop (8 * (count + 1)) = rest.drop (8 * count) := by
  have width : 8 * (count + 1) = groupBits + 8 * count + 1 := by
    unfold groupBits
    omega
  rw [width, List.drop_succ_cons, ← List.drop_drop, List.drop_left' (length_ofNat _ _)]

theorem last_iff (small : digit < groupBase) :
    Adds (false :: (ofNat groupBits digit ++ rest)) (left + 1) weight sum value behind ↔
      sum + digit * weight < UInt64.size ∧ value = sum + digit * weight ∧ behind = rest := by
  have single : weight * Nat.ofDigits groupBase [digit] = digit * weight := by
    rw [Nat.ofDigits_singleton, Nat.mul_comm]
  constructor
  · rintro ⟨digits, spelled, -, fits, total, after⟩
    obtain ⟨-, rfl⟩ | ⟨set, -⟩ := (Spells.iff_group false small).1 spelled
    · rw [single] at fits total
      rw [List.length_singleton, drop_group false digit 0] at after
      exact ⟨fits, total, after⟩
    · cases set
  · rintro ⟨fits, total, rfl⟩
    refine ⟨[digit], .last small, Nat.succ_le_succ (Nat.zero_le _), ?_, ?_, ?_⟩
    · rwa [single]
    · rwa [single]
    · exact (drop_group false digit 0 behind).symm

theorem more_iff (small : digit < groupBase) :
    Adds (true :: (ofNat groupBits digit ++ rest)) (left + 1) weight sum value behind ↔
      Adds rest left (weight * groupBase) (sum + digit * weight) value behind := by
  have carried : ∀ higher, sum + weight * Nat.ofDigits groupBase (digit :: higher) =
      sum + digit * weight + weight * groupBase * Nat.ofDigits groupBase higher := by
    intro higher
    rw [Nat.ofDigits_cons]
    ring
  constructor
  · rintro ⟨digits, spelled, few, fits, total, after⟩
    obtain ⟨set, -⟩ | ⟨-, higher, rfl, next⟩ := (Spells.iff_group true small).1 spelled
    · cases set
    · rw [carried] at fits total
      rw [List.length_cons, drop_group] at after
      exact ⟨higher, next, Nat.le_of_succ_le_succ few, fits, total, after⟩
  · rintro ⟨higher, next, few, fits, total, after⟩
    rw [← carried] at fits total
    refine ⟨digit :: higher, .more small next, Nat.succ_le_succ few, fits, total, ?_⟩
    rw [List.length_cons, drop_group, after]

end Adds

/-- From the group of weight `groupBase ^ i` on, a number is read exactly if its groups end in time
and their sum stays within the word. -/
theorem groups_eq_ok_iff (maxGroups : Nat) {left i sum value : Nat} {stream : BitStream}
    {behind : Bits} (room : i + left ≤ 10) (low : sum < groupBase ^ i) :
    (∃ rest, groups maxGroups left (groupBase ^ i) sum stream = .ok value rest ∧
        rest.bits = behind) ↔
      Adds stream.bits left (groupBase ^ i) sum value behind := by
  -- Over the groups still allowed: each has its place above all that were read before it.
  induction left generalizing i sum stream with
  | zero =>
    refine iff_of_false ?_ Adds.not_zero
    rintro ⟨rest, answer, -⟩
    cases answer
  | succ left ih =>
    rw [groups_succ]
    rcases group_cases stream with ⟨short, error, rest, run⟩ |
      ⟨more, digit, middle, small, front, run⟩
    · rw [bind_of_error run]
      refine iff_of_false ?_ ?_
      · rintro ⟨rest, answer, -⟩
        cases answer
      · intro added
        have := added.long
        rw [BitStream.length_bits] at this
        omega
    · rw [bind_of_ok run, front]
      by_cases narrow : digit * groupBase ^ i < UInt64.size
      · have inside := sum_lt_of_narrow (by omega) low narrow
        simp only [if_pos narrow]
        cases more with
        | false =>
          rw [Adds.last_iff small]
          constructor
          · rintro ⟨rest, answer, rfl⟩
            cases answer
            exact ⟨inside, rfl, rfl⟩
          · rintro ⟨-, rfl, rfl⟩
            exact ⟨middle, rfl, rfl⟩
        | true =>
          rw [Adds.more_iff small, ← Nat.pow_succ]
          exact ih (by omega) (below_next_place small low)
      · simp only [if_neg narrow]
        refine iff_of_false ?_ ?_
        · rintro ⟨rest, answer, -⟩
          cases answer
        · intro added
          apply narrow
          cases more with
          | false =>
            have := ((Adds.last_iff small).1 added).1
            omega
          | true =>
            have := ((Adds.more_iff small).1 added).sum_lt
            omega

section Number

variable {maxGroups : Nat} {stream left : BitStream} {value : Nat}

theorem number_eq_ok_iff (few : maxGroups ≤ 10) {behind : Bits} :
    (∃ rest, number maxGroups stream = .ok value rest ∧ rest.bits = behind) ↔
      Adds stream.bits maxGroups 1 0 value behind := by
  have h : (∃ rest, groups maxGroups maxGroups (groupBase ^ 0) 0 stream = .ok value rest ∧
      rest.bits = behind) ↔ Adds stream.bits maxGroups (groupBase ^ 0) 0 value behind :=
    groups_eq_ok_iff maxGroups (by omega) (by decide)
  rwa [Nat.pow_zero] at h

theorem number_lt (few : maxGroups ≤ 10) (run : number maxGroups stream = .ok value left) :
    value < UInt64.size := by
  obtain ⟨digits, -, -, fits, rfl, -⟩ := (number_eq_ok_iff few).1 ⟨left, run, rfl⟩
  exact fits

end Number

end Reader

end AreaReplication
