import AreaReplication.Message.Error
import AreaReplication.Bits.Varint

/-!
# Writing messages

The layout of both kinds of message. A leading byte holds the format version and the kind; ids,
times and counts are variable-length numbers; every optional field follows a presence bit. Each
`write` appends a written form to what has been written before it.
-/
namespace AreaReplication

def formatVersion : Nat := 1

def MessageKind.write (kind : MessageKind) (buffer : BitBuffer) : BitBuffer :=
  (buffer.put 4 formatVersion).put 4 kind.code

def optionalField {α : Type} (write : α → BitBuffer → BitBuffer) (value : Option α)
    (buffer : BitBuffer) : BitBuffer :=
  match value with
  | none => buffer.putFlag false
  | some value => write value (buffer.putFlag true)

def writeAll {α : Type} (write : α → BitBuffer → BitBuffer) (values : List α)
    (buffer : BitBuffer) : BitBuffer :=
  values.foldl (fun buffer value => write value buffer) buffer

def writeWord (value : UInt64) (buffer : BitBuffer) : BitBuffer := Varint.write value.toNat buffer

def Binary64.write (value : Binary64) (buffer : BitBuffer) : BitBuffer :=
  buffer.putBytes 8 value.bits

def Vec3.write (v : Vec3) (buffer : BitBuffer) : BitBuffer :=
  writeAll Binary64.write v.toList buffer

def Quat.write (q : Quat) (buffer : BitBuffer) : BitBuffer :=
  writeAll Binary64.write q.toList buffer

def Zone.write (zone : Zone) (buffer : BitBuffer) : BitBuffer :=
  buffer
    |> Varint.write (Varint.zigzag zone.x)
    |> Varint.write (Varint.zigzag zone.y)
    |> Varint.write (Varint.zigzag zone.z)

def Delta.write (delta : Delta) (buffer : BitBuffer) : BitBuffer :=
  buffer
    |> Varint.write delta.netId.toNat
    |> writeWord delta.version
    |> BitBuffer.putFlag delta.removed
    |> optionalField writeWord delta.baseline
    |> optionalField writeWord delta.entity
    |> optionalField (fun zoneId => Varint.write zoneId.toNat) delta.zoneId
    |> optionalField Vec3.write delta.position
    |> optionalField Quat.write delta.rotation

def Frame.write (frame : Frame) (buffer : BitBuffer) : BitBuffer :=
  buffer
    |> writeWord frame.time
    |> optionalField Zone.write frame.center
    |> Varint.write frame.states.length
    |> writeAll Delta.write frame.states

namespace Message

def write (message : Message) (buffer : BitBuffer) : BitBuffer :=
  buffer
    |> MessageKind.frames.write
    |> writeWord message.id
    |> writeWord message.sentAt
    |> Varint.write message.echoed.length
    |> writeAll writeWord message.echoed
    |> Varint.write message.frames.length
    |> writeAll Frame.write message.frames

def countBound : Nat := UInt32.size

def counts (message : Message) : List (Bound × Nat) :=
  (.acksPerHeader, message.echoed.length) :: (.framesPerMessage, message.frames.length) ::
    message.frames.map fun frame => (.statesPerFrame, frame.states.length)

def encode (message : Message) : Except EncodeError Packet :=
  match message.counts.find? fun count => countBound ≤ count.2 with
  | some (bound, actual) => .error (.countOverflow bound actual)
  | none => .ok (message.write {}).finish

end Message

def Ack.write (id : MessageId) (sentAt : Time) (buffer : BitBuffer) : BitBuffer :=
  buffer |> MessageKind.ack.write |> writeWord id |> writeWord sentAt

def Ack.encode (id : MessageId) (sentAt : Time) : Packet := (Ack.write id sentAt {}).finish

end AreaReplication
