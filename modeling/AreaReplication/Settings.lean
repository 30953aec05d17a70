import AreaReplication.Json.Parser

/-!
# Settings of a connection

The settings have a JSON form: an object with a field for each, or an array of their values in the
same order. What is left out keeps its default, and unknown fields are ignored: in a text, their
values are read leniently.
-/
namespace AreaReplication

structure Settings where
  /-- Zones in view around the center zone, on each axis that is not flat. -/
  zoneRadius : Nat := 1
  firstNetId : UInt32 := 1
  /-- The size limit of a message in bytes. -/
  maxMessageSize : Nat := 1500
  /-- Samples after which the round-trip estimate becomes a moving mean. -/
  pingWindow : Nat := 100
  /-- Changes of the round-trip estimate above this are noted. -/
  pingThresholdMs : Nat := 10
  /-- Sent snapshots kept for each object. -/
  historyCapacity : Nat := 32
  /-- Unacknowledged messages remembered. -/
  maxOutstanding : Nat := 256
  deriving DecidableEq, Repr

namespace Settings

def small : Settings := { historyCapacity := 8, maxOutstanding := 32 }

def fieldNames : List String :=
  ["zone_radius", "first_network_id", "max_message_size", "ping_window", "ping_log_threshold_ms",
    "history_capacity", "max_outstanding_frames"]

def fieldBound : String → Nat
  | "zone_radius" => UInt32.size
  | "first_network_id" => UInt32.size
  | "ping_window" => UInt32.size
  | _ => UInt64.size

def setField (settings : Settings) (name : String) (value : Nat) : Settings :=
  match name with
  | "zone_radius" => { settings with zoneRadius := value }
  | "first_network_id" => { settings with firstNetId := UInt32.ofNat value }
  | "max_message_size" => { settings with maxMessageSize := value }
  | "ping_window" => { settings with pingWindow := value }
  | "ping_log_threshold_ms" => { settings with pingThresholdMs := value }
  | "history_capacity" => { settings with historyCapacity := value }
  | "max_outstanding_frames" => { settings with maxOutstanding := value }
  | _ => settings

/-- Takes over one setting; it must be a whole number within its bound. -/
def readField (settings : Settings) (name : String) : Json → Option Settings
  | .int value =>
    if 0 ≤ value ∧ value.toNat < fieldBound name then
      some (settings.setField name value.toNat)
    else
      none
  | _ => none

/-- Takes over the known ones among the fields of an object; none may come twice. -/
def readFields : (seen : List String) → List (String × Json) → Settings → Option Settings
  | _, [], settings => some settings
  | seen, (name, value) :: rest, settings =>
    if !fieldNames.contains name then
      readFields seen rest settings
    else if seen.contains name then
      none
    else
      match settings.readField name value with
      | some settings => readFields (name :: seen) rest settings
      | none => none

/-- Takes over values in the order of the names; there may not be more values than names. -/
def readItems : (names : List String) → List Json → Settings → Option Settings
  | _, [], settings => some settings
  | [], _ :: _, _ => none
  | name :: names, value :: rest, settings =>
    match settings.readField name value with
    | some settings => readItems names rest settings
    | none => none

def ofJson? : Json → Option Settings
  | .object fields => readFields [] fields {}
  | .array items => readItems fieldNames items {}
  | _ => none

def ofText? (text : String) : Option Settings := (Json.parseShallow? text).bind ofJson?

def pingThreshold (settings : Settings) : Nat := settings.pingThresholdMs * 1000000

end Settings

end AreaReplication
