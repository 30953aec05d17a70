import AreaReplication.Event

/-!
# The round-trip estimate

A plain mean over the first samples, then a moving mean in which each new sample has weight
`1 / (window + 1)`. All times are whole nanoseconds and every division rounds down.
-/
namespace AreaReplication

structure Ping where
  window : Nat
  /-- A change above this, in nanoseconds, is noted. -/
  threshold : Nat
  mean : Nat := 0
  /-- The samples that weight the mean, at most `window`. -/
  samples : Nat := 0
  deriving DecidableEq, Repr

namespace Ping

/-- The mean, as far as a 64-bit number of nanoseconds goes. -/
def estimate (ping : Ping) : Nat := min ping.mean (UInt64.size - 1)

def nextMean (ping : Ping) (sample : Nat) : Nat :=
  (sample + ping.mean * ping.samples) / (ping.samples + 1)

def record (ping : Ping) (sample : Nat) : Noted Ping := do
  let mean := ping.nextMean sample
  let moved := max mean ping.mean - min mean ping.mean
  let next := { ping with mean, samples := min (ping.samples + 1) ping.window }
  noteIf (ping.threshold < moved) (.pingMoved next.estimate)
  return next

end Ping

end AreaReplication
