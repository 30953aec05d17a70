import AreaReplication.Json.Basic
import AreaReplication.Log
import AreaReplication.Session
import AreaReplication.Sim.Client

/-!
# The summary of a simulation
-/
namespace AreaReplication.Sim

/-- Counts over a whole run, ticks and both ends taken together. -/
structure Summary where
  entities : Nat
  ticks : Nat
  seed : UInt64
  lossPercent : Nat
  maxMessageSize : Nat
  /-- The size of each sent message in bytes. -/
  sizes : List Nat
  stats : FrameStats
  client : ClientReport
  objectsSeen : Nat
  finalObjects : Nat
  /-- The round-trip estimate in nanoseconds. -/
  ping : Nat
  deriving DecidableEq, Repr

/-- The counts of two ticks together; the time is that of the later one. -/
def addStats (total : FrameStats) (tick : FrameStats) : FrameStats where
  time := tick.time
  acksProcessed := total.acksProcessed + tick.acksProcessed
  baselinesCommitted := total.baselinesCommitted + tick.baselinesCommitted
  acksUnconfirmed := total.acksUnconfirmed + tick.acksUnconfirmed
  statesEmitted := total.statesEmitted + tick.statesEmitted
  markedRemoved := total.markedRemoved + tick.markedRemoved
  reaped := total.reaped + tick.reaped
  idsReleased := total.idsReleased + tick.idsReleased

namespace Summary

def messages (summary : Summary) : Nat := summary.sizes.length

def bytesTotal (summary : Summary) : Nat := summary.sizes.foldl (· + ·) 0

def averageBytes (summary : Summary) : Nat := summary.bytesTotal / summary.messages

def largestBytes (summary : Summary) : Nat := summary.sizes.foldl max 0

/-- The size that nineteen of twenty messages do not exceed. -/
def p95Bytes (summary : Summary) : Nat :=
  let rank := (Float.ofNat summary.messages * 0.95).ceil.toUInt64.toNat
  let sorted := summary.sizes.mergeSort fun a b => decide (a ≤ b)
  (sorted[min (rank - 1) (summary.messages - 1)]?).getD 0

def pingMillis (summary : Summary) : Binary64 := .ofFloat (millis summary.ping)

def counts (summary : Summary) : List (String × Nat) :=
  [("entities", summary.entities), ("ticks", summary.ticks), ("seed", summary.seed.toNat),
    ("loss_percent", summary.lossPercent), ("max_message_size", summary.maxMessageSize),
    ("messages", summary.messages), ("bytes_total", summary.bytesTotal),
    ("avg_message_bytes", summary.averageBytes), ("p95_message_bytes", summary.p95Bytes),
    ("max_message_bytes", summary.largestBytes),
    ("acks_processed", summary.stats.acksProcessed),
    ("acks_posted", summary.client.acksPosted),
    ("baselines_committed", summary.stats.baselinesCommitted),
    ("acks_unconfirmed", summary.stats.acksUnconfirmed),
    ("states_emitted", summary.stats.statesEmitted),
    ("marked_removed", summary.stats.markedRemoved), ("reaped", summary.stats.reaped),
    ("messages_lost", summary.client.lost), ("baseline_misses", summary.client.misses),
    ("versions_pruned", summary.client.pruned), ("removals_seen", summary.client.removals),
    ("objects_seen", summary.objectsSeen), ("final_objects", summary.finalObjects)]

def toJson (summary : Summary) : Json :=
  .object (summary.counts.map (fun (name, count) => (name, .ofNat count)) ++
    [("ping_ms", .float summary.pingMillis)])

/-- Why a run is not good enough: the client missed states, or messages are larger than wanted. -/
def overBudget? (summary : Summary) (maxP95 : Option Nat) : Option String :=
  if 0 < summary.client.misses then
    some s!"client saw {summary.client.misses} deltas against versions it does not hold"
  else
    match maxP95 with
    | some budget =>
      if budget < summary.p95Bytes then
        some s!"p95 message bytes {summary.p95Bytes} exceeds budget {budget}"
      else
        none
    | none => none

end Summary

end AreaReplication.Sim
