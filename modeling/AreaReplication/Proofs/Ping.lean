import AreaReplication.Ping
import Mathlib.Algebra.Order.Ring.Nat
import Mathlib.Data.List.Induction
import Mathlib.Data.Nat.Choose.Basic

/-!
# The round-trip estimate stays among its samples

A new mean lies between the old one and the new sample, so it never leaves the range of the samples.
While the window is not yet full it is their plain mean, less at most one nanosecond for each
division on the way. The computation fits words of 128 bits.
-/
namespace AreaReplication.Ping

def ofSamples (window threshold : Nat) (samples : List Nat) : Ping :=
  samples.foldl (fun ping sample => (ping.record sample).value) { window, threshold }

theorem ofSamples_concat (window threshold : Nat) (past : List Nat) (sample : Nat) :
    ofSamples window threshold (past ++ [sample]) =
      ((ofSamples window threshold past).record sample).value := by
  rw [ofSamples, List.foldl_append]
  rfl

theorem record_mean (ping : Ping) (sample : Nat) :
    (ping.record sample).value.mean = ping.nextMean sample := rfl

theorem record_samples (ping : Ping) (sample : Nat) :
    (ping.record sample).value.samples = min (ping.samples + 1) ping.window := rfl

section NextMean

variable {ping : Ping} {sample : Nat}

/-- A sample that no other weights becomes the mean. -/
theorem nextMean_of_unweighted (h : ping.samples = 0) : ping.nextMean sample = sample := by
  simp [nextMean, h]

theorem le_nextMean {low : Nat} (hmean : low ≤ ping.mean) (hsample : low ≤ sample) :
    low ≤ ping.nextMean sample := by
  have weighted : low * ping.samples ≤ ping.mean * ping.samples := Nat.mul_le_mul_right _ hmean
  apply (Nat.le_div_iff_mul_le (Nat.succ_pos _)).2
  rw [Nat.mul_succ]
  omega

theorem nextMean_le {high : Nat} (hmean : ping.mean ≤ high) (hsample : sample ≤ high) :
    ping.nextMean sample ≤ high := by
  have weighted : ping.mean * ping.samples ≤ high * ping.samples := Nat.mul_le_mul_right _ hmean
  apply Nat.div_le_of_le_mul
  rw [Nat.succ_mul, Nat.mul_comm ping.samples]
  omega

/-- The division loses less than its divisor. -/
theorem nextMean_mul (ping : Ping) (sample : Nat) :
    (ping.samples + 1) * ping.nextMean sample ≤ sample + ping.mean * ping.samples ∧
      sample + ping.mean * ping.samples ≤
        (ping.samples + 1) * ping.nextMean sample + ping.samples := by
  have parts := Nat.div_add_mod (sample + ping.mean * ping.samples) (ping.samples + 1)
  have lost := Nat.mod_lt (sample + ping.mean * ping.samples) (Nat.add_one_pos ping.samples)
  unfold nextMean
  constructor <;> omega

end NextMean

structure Tracks (window : Nat) (past : List Nat) (ping : Ping) : Prop where
  width : ping.window = window
  samples : ping.samples = min past.length window
  least : past ≠ [] → ∀ low, (∀ sample ∈ past, low ≤ sample) → low ≤ ping.mean
  greatest : ∀ high, (∀ sample ∈ past, sample ≤ high) → ping.mean ≤ high
  sum : past.length ≤ window + 1 → past.length * ping.mean ≤ past.sum ∧
    past.sum ≤ past.length * ping.mean + past.length * (past.length - 1) / 2

namespace Tracks

variable {window : Nat} {past : List Nat} {ping : Ping}

theorem start (window threshold : Nat) : Tracks window [] { window, threshold } where
  width := rfl
  samples := (Nat.zero_min window).symm
  least := by
    intro filled
    exact absurd rfl filled
  greatest := by
    intro high _
    exact Nat.zero_le high
  sum := by
    intro _
    exact ⟨Nat.le_refl 0, Nat.le_refl 0⟩

theorem record (h : Tracks window past ping) (sample : Nat) :
    Tracks window (past ++ [sample]) (ping.record sample).value where
  width := h.width
  samples := by
    rw [record_samples, h.samples, h.width, List.length_append, List.length_singleton]
    omega
  least := by
    intro _ low below
    have hsample : low ≤ sample := below sample (by simp)
    rw [record_mean]
    by_cases first : past = []
    · have unweighted : ping.samples = 0 := by rw [h.samples, first, List.length_nil, Nat.zero_min]
      rwa [nextMean_of_unweighted unweighted]
    · have hmean : low ≤ ping.mean := by
        apply h.least first
        intro earlier he
        exact below earlier (List.mem_append_left _ he)
      exact le_nextMean hmean hsample
  greatest := by
    intro high above
    have hmean : ping.mean ≤ high := by
      apply h.greatest
      intro earlier he
      exact above earlier (List.mem_append_left _ he)
    rw [record_mean]
    exact nextMean_le hmean (above sample (by simp))
  sum := by
    intro inside
    rw [List.length_append, List.length_singleton] at inside
    obtain ⟨most, least⟩ := h.sum (by omega)
    -- All earlier samples weight the mean, and the division by their number and one more loses at
    -- most their number.
    have weight : ping.samples = past.length := by
      rw [h.samples]
      omega
    obtain ⟨fits, lost⟩ := nextMean_mul ping sample
    rw [weight, Nat.mul_comm ping.mean] at fits lost
    have triangle := Nat.triangle_succ past.length
    rw [record_mean, List.sum_append, List.sum_singleton, List.length_append,
      List.length_singleton, triangle]
    constructor <;> omega

theorem ofSamples (window threshold : Nat) (past : List Nat) :
    Tracks window past (ofSamples window threshold past) := by
  induction past using List.reverseRecOn with
  | nil => exact start window threshold
  | append_singleton past sample ih =>
    rw [ofSamples_concat]
    exact ih.record sample

end Tracks

def word? (value : Nat) : Option Nat := if value < 2 ^ 128 then some value else none

theorem word?_eq_some {value : Nat} (h : value < 2 ^ 128) : word? value = some value := if_pos h

/-- The next mean in words of 128 bits, if none of its steps is too large for them. -/
def nextMeanInWords? (ping : Ping) (sample : Nat) : Option Nat := do
  let sample ← word? sample
  let mean ← word? ping.mean
  let weight ← word? ping.samples
  let weighted ← word? (mean * weight)
  let total ← word? (sample + weighted)
  let divisor ← word? (weight + 1)
  word? (total / divisor)

/-- One more than the longest duration, in nanoseconds: its seconds are a number of 64 bits. -/
def durationBound : Nat := UInt64.size * 1000000000

/-- Samples that are durations never lead to a number above 128 bits. -/
theorem nextMeanInWords?_eq {ping : Ping} {sample : Nat} (hsample : sample < durationBound)
    (hmean : ping.mean < durationBound) (hweight : ping.samples < 2 ^ 32) :
    ping.nextMeanInWords? sample = some (ping.nextMean sample) := by
  have bound : durationBound = 2 ^ 64 * 1000000000 := rfl
  have product : ping.mean * ping.samples ≤ durationBound * (2 ^ 32 - 1) :=
    Nat.mul_le_mul (Nat.le_of_lt hmean) (by omega)
  have quotient : ping.nextMean sample ≤ sample + ping.mean * ping.samples := Nat.div_le_self _ _
  have operands : sample < 2 ^ 128 ∧ ping.mean < 2 ^ 128 ∧ ping.samples < 2 ^ 128 := by omega
  have weighted : ping.mean * ping.samples < 2 ^ 128 := by omega
  have total : sample + ping.mean * ping.samples < 2 ^ 128 := by omega
  have divisor : ping.samples + 1 < 2 ^ 128 := by omega
  have answer : ping.nextMean sample < 2 ^ 128 := by omega
  unfold nextMean at *
  simp only [nextMeanInWords?, word?_eq_some, operands, weighted, total, divisor, answer,
    Option.bind_eq_bind, Option.bind_some]

/-- After every sample the mean lies between the smallest and the largest sample, and between the
mean before and the sample. While the window has room it is the sum of the samples by their number,
less what the divisions have lost. Durations and a window of 32 bits keep every number on the way
within 128 bits. -/
theorem mean_stays_in_range (window threshold : Nat) (past : List Nat) (sample : Nat) :
    let before := ofSamples window threshold past
    let after := (before.record sample).value
    let samples := past ++ [sample]
    let n := samples.length
    (samples.min (List.concat_ne_nil sample past) ≤ after.mean ∧
      after.mean ≤ samples.max (List.concat_ne_nil sample past)) ∧
    (min before.mean sample ≤ after.mean ∧ after.mean ≤ max before.mean sample) ∧
    (n ≤ window + 1 → n * after.mean ≤ samples.sum ∧
      samples.sum ≤ n * after.mean + n * (n - 1) / 2) ∧
    (window < 2 ^ 32 → (∀ duration ∈ samples, duration < durationBound) →
      before.nextMeanInWords? sample = some after.mean) := by
  intro before after samples n
  have known : Tracks window past before := .ofSamples window threshold past
  have knows : Tracks window samples after := known.record sample
  have filled : samples ≠ [] := List.concat_ne_nil sample past
  refine ⟨⟨?_, ?_⟩, ⟨?_, ?_⟩, knows.sum, ?_⟩
  · apply knows.least filled
    intro earlier he
    exact List.min_le_of_mem he
  · apply knows.greatest
    intro earlier he
    exact List.le_max_of_mem he
  · exact le_nextMean (Nat.min_le_left _ _) (Nat.min_le_right _ _)
  · exact nextMean_le (Nat.le_max_left _ _) (Nat.le_max_right _ _)
  · intro narrow durations
    have hsample : sample < durationBound := durations sample (List.mem_append_right _ (by simp))
    have hmean : before.mean ≤ durationBound - 1 := by
      apply known.greatest
      intro earlier he
      exact Nat.le_sub_one_of_lt (durations earlier (List.mem_append_left _ he))
    have hweight : before.samples < 2 ^ 32 := by
      rw [known.samples]
      omega
    exact nextMeanInWords?_eq hsample (by omega) hweight

/-- The third sample fills a window of two, and the divisions have lost all they may by then. -/
theorem mean_stays_in_range_full :
    ((ofSamples 2 0 [50, 51]).record 10).value.mean = 36 ∧
    [50, 51, 10].length ≤ 2 + 1 ∧ 3 * 36 ≤ [50, 51, 10].sum ∧ [50, 51, 10].sum ≤ 3 * 36 + 3 ∧
    2 < 2 ^ 32 ∧ (∀ duration ∈ [50, 51, 10], duration < durationBound) ∧
    (ofSamples 2 0 [50, 51]).nextMeanInWords? 10 = some 36 := by
  have room : [50, 51, 10].length ≤ 2 + 1 := by decide
  have narrow : 2 < 2 ^ 32 := by decide
  have durations : ∀ duration ∈ [50, 51, 10], duration < durationBound := by decide
  obtain ⟨-, -, plain, words⟩ := mean_stays_in_range 2 0 [50, 51] 10
  obtain ⟨most, least⟩ := plain room
  exact ⟨by decide, room, most, least, narrow, durations, words narrow durations⟩

end AreaReplication.Ping
