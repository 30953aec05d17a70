import AreaReplication.Json.Basic
import AreaReplication.Message.Decode

/-!
# Messages as JSON

A captured message as a JSON value, and an outline of such a value for terminals. Absent parts of a
state are left out of its JSON. The outline takes any value: what is missing reads as `null`.
-/
namespace AreaReplication

def presentFields (fields : List (String × Option Json)) : List (String × Json) :=
  fields.filterMap fun (name, value) => value.map fun value => (name, value)

def Delta.toJson (delta : Delta) : Json :=
  .object (presentFields
    [("network_id", some (.ofNat delta.netId.toNat)),
      ("version", some (.ofNat delta.version.toNat)),
      ("baseline_version", delta.baseline.map fun version => .ofNat version.toNat),
      ("removed", some (.bool delta.removed)),
      ("entity_id", delta.entity.map fun entity => .ofNat entity.toNat),
      ("zone_id", delta.zoneId.map fun zoneId => .ofNat zoneId.toNat),
      ("position", delta.position.map fun position => .array (position.toList.map .float)),
      ("rotation", delta.rotation.map fun rotation => .array (rotation.toList.map .float))])

def Zone.toJson (zone : Zone) : Json :=
  .array [.int zone.x.toInt, .int zone.y.toInt, .int zone.z.toInt]

def Frame.toJson (frame : Frame) : Json :=
  .object
    [("time", .ofNat frame.time.toNat),
      ("center", .ofOption Zone.toJson frame.center),
      ("states", .array (frame.states.map Delta.toJson))]

def Message.toJson (message : Message) : Json :=
  .object
    [("kind", .string "frames"),
      ("id", .ofNat message.id.toNat),
      ("sent_time", .ofNat message.sentAt.toNat),
      ("acked", .array (message.echoed.map fun ack => .ofNat ack.toNat)),
      ("frames", .array (message.frames.map Frame.toJson))]

def Ack.toJson (ack : Ack) : Json :=
  .object
    [("kind", .string "ack"),
      ("frame_id", .ofNat ack.id.toNat),
      ("sent_time", .ofNat ack.sentAt.toNat)]

/-- The JSON of a captured message of either kind, with sorted fields. Numbers that are not finite
become `null` when they are written. -/
def packetJson (limits : Limits) (packet : Packet) : Except DecodeError Json := do
  match ← MessageKind.peek packet with
  | .ack => return (← Ack.decode packet 0).toJson.sorted
  | .frames => return (← Message.decode limits packet).toJson.sorted

def stateOutline (state : Json) : String :=
  let base :=
    match state.field? "baseline_version" with
    | some version => "base " ++ version.compact
    | none => "full"
  let removed :=
    match state.field "removed" with
    | .bool true => " removed"
    | _ => ""
  "    net#" ++ (state.field "network_id").compact ++ " v" ++ (state.field "version").compact ++
    " (" ++ base ++ ")" ++ removed ++ "\n"

def frameOutline (frame : Json) : String :=
  "  time " ++ (frame.field "time").compact ++ " center " ++ (frame.field "center").compact ++
    "\n" ++ String.join ((frame.field "states").items.map stateOutline)

def outline (json : Json) : String :=
  let json := json.sorted
  match json.field "kind" with
  | .string "ack" =>
    "ack frame#" ++ (json.field "frame_id").compact ++ " sent_time=" ++
      (json.field "sent_time").compact ++ "\n"
  | _ =>
    "frame#" ++ (json.field "id").compact ++ " sent_time=" ++ (json.field "sent_time").compact ++
      " acked=" ++ (json.field "acked").compact ++ "\n" ++
      String.join ((json.field "frames").items.map frameOutline)

end AreaReplication
