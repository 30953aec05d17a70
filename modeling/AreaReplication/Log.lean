import AreaReplication.Decimal.Fixed
import AreaReplication.Event

/-!
# The operator's log

The level and the line of text of each event that an operator gets to see.
-/
namespace AreaReplication

inductive LogLevel where
  | warn
  | debug
  | trace
  deriving DecidableEq, Repr

namespace LogLevel

def name : LogLevel → String
  | warn => "WARN"
  | debug => "DEBUG"
  | trace => "TRACE"

def rank : LogLevel → Nat
  | warn => 0
  | debug => 1
  | trace => 2

end LogLevel

/-- Nanoseconds as milliseconds, through seconds as the clock counts them. -/
def millis (nanos : Nat) : Float :=
  (Float.ofNat (nanos / 1000000000) + Float.ofNat (nanos % 1000000000) / 1000000000.0) * 1000.0

namespace Event

def centerText : Option Zone → String
  | none => "None"
  | some zone =>
    "Some(ZoneKey \x7b " ++
      s!"x: {zone.x.toInt}, y: {zone.y.toInt}, z: {zone.z.toInt}" ++ " \x7d)"

/-- The level and the line of text of an event on the connection to `peer`; a queued state has
none. -/
def line? (peer : String) : Event → Option (LogLevel × String)
  | idAssigned id entity => some (.trace, s!"assigned {id.text} to {entity.text}")
  | idRetired id entity watermark =>
    some (.trace, s!"retired {id.text} from {entity.text} until {watermark.text} settles")
  | idsExhausted entity => some (.warn, s!"no network id left for {entity.text}")
  | pingMoved estimate =>
    some (.debug, "ping estimate now " ++ Decimal.fixed 3 (.ofFloat (millis estimate)) ++ " ms")
  | ackIgnored id => some (.trace, s!"ignoring ack for {id.text}")
  | versionLost id version acked =>
    some (.debug, s!"{id.text} v{version.toNat} left history before {acked.text} was acked")
  | historyRefused id error => some (.warn, s!"{id.text}: {error.message}")
  | removalUndone id => some (.trace, s!"{id.text} reappeared after removal was sent")
  | leftView entity => some (.debug, s!"{entity.text} left the visible zones, marking removed")
  | reaped entity id => some (.debug, s!"reaped {entity.text} ({id.text})")
  | frameSplit time => some (.trace, s!"splitting frame at time {time.toNat} for {peer}")
  | queued _ _ _ _ => none
  | sent message packet =>
    some (.trace, s!"sent {message.id.text} to {peer}: {message.frames.length} frames, " ++
      s!"{message.stateCount} states, {packet.length} bytes")
  | expired id => some (.debug, s!"{id.text} to {peer} expired unacknowledged")
  | zoneOutOfView zone time =>
    some (.warn, s!"{peer}: no zone id for {zone.text} at time {time.toNat}")
  | staleUpdate entity time => some (.trace, s!"stale update for {entity.text} at {time.toNat}")
  | centered center entered exited =>
    some (.debug, s!"{peer} now centered on {centerText center}: {entered} zones entered, " ++
      s!"{exited} exited")

end Event

def logLines (level : LogLevel) (peer : String) (events : List Event) : List String :=
  (events.filterMap (Event.line? peer)).filterMap fun (own, text) =>
    if own.rank ≤ level.rank then some s!"{own.name} {text}" else none

end AreaReplication
