/-!
# Random numbers

A linear congruential generator on 64-bit words; the upper half of each word is the next number.
-/
namespace AreaReplication.Sim

structure Random where
  state : UInt64
  deriving DecidableEq, Repr

namespace Random

def step (random : Random) : Random := ⟨random.state * 6364136223846793005 + 1⟩

def next (random : Random) : UInt32 × Random :=
  let random := random.step
  ((random.state >>> 32).toUInt32, random)

/-- A number below `bound`; zero if nothing is below it. -/
def below (bound : Nat) (random : Random) : Nat × Random :=
  let (value, random) := random.next
  (value.toNat % max bound 1, random)

def percent (share : Nat) (random : Random) : Bool × Random :=
  let (value, random) := random.below 100
  (decide (value < share), random)

def between (low high : Float) (random : Random) : Float × Random :=
  let (value, random) := random.next
  (low + (high - low) * (Float.ofNat value.toNat / Float.ofNat (UInt32.size - 1)), random)

end Random

end AreaReplication.Sim
