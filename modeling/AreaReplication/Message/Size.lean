import AreaReplication.Bits.Varint
import AreaReplication.Message.Basic

/-!
# Size estimates

How many bits a message takes, from the magnitudes of its fields alone. The counts of frames and
states are not known while a message is being filled, so an estimate reserves the longest form of
each of those two fields and is otherwise exact.
-/
namespace AreaReplication

/-- Bits reserved for a count that is not known yet. -/
def countFieldBits : Nat := 40

def sumBits {α : Type} (size : α → Nat) (parts : List α) : Nat :=
  parts.foldl (fun bits part => bits + size part) 0

namespace Zone

def bitCount (zone : Zone) : Nat :=
  Varint.size (Varint.zigzag zone.x) + Varint.size (Varint.zigzag zone.y) +
    Varint.size (Varint.zigzag zone.z)

end Zone

/-- Bits of the message header, with the longest frame count. -/
def messageHeaderBits (id : MessageId) (sentAt : Time) (echoed : List MessageId) : Nat :=
  8 + Varint.size id.toNat + Varint.size sentAt.toNat + Varint.size echoed.length +
    sumBits (fun ack => Varint.size ack.toNat) echoed + countFieldBits

/-- Bits of a frame header, with the longest state count. -/
def frameHeaderBits (time : Time) (center : Option Zone) : Nat :=
  Varint.size time.toNat + 1 + (center.map Zone.bitCount).getD 0 + countFieldBits

def optionalBits {α : Type} (size : α → Nat) (value : Option α) : Nat :=
  1 + (value.map size).getD 0

/-- The exact size of an object state. -/
def Delta.bitCount (delta : Delta) : Nat :=
  Varint.size delta.netId.toNat + Varint.size delta.version.toNat + 1 +
    optionalBits (fun version => Varint.size version.toNat) delta.baseline +
    optionalBits (fun entity => Varint.size entity.toNat) delta.entity +
    optionalBits (fun zoneId => Varint.size zoneId.toNat) delta.zoneId +
    optionalBits (fun _ => 3 * 64) delta.position +
    optionalBits (fun _ => 4 * 64) delta.rotation

def Frame.bitCount (frame : Frame) : Nat :=
  frameHeaderBits frame.time frame.center + sumBits Delta.bitCount frame.states

end AreaReplication
