import AreaReplication.Bits.Reader
import AreaReplication.Message.Encode

/-!
# Reading messages

Both kinds of message are read back in the order in which they are written. A count is checked
against the receiver's limits before anything that it counts is read, and fewer than eight bits may
be left at the end.
-/
namespace AreaReplication

instance : MonadLift (Reader BitError) (Reader DecodeError) := ⟨Reader.mapError .malformed⟩

namespace Reader

def vec3 : Reader BitError Vec3 := do
  return ⟨← double, ← double, ← double⟩

def quat : Reader BitError Quat := do
  return ⟨← double, ← double, ← double, ← double⟩

def zone : Reader BitError Zone := do
  return ⟨← vars32, ← vars32, ← vars32⟩

def delta : Reader BitError Delta := do
  let netId ← varu32
  let version ← varu64
  let removed ← bit
  let baseline ← optional bit varu64
  let entity ← optional bit varu64
  let zoneId ← optional bit varu32
  let position ← optional bit vec3
  let rotation ← optional bit quat
  return { netId, version, baseline, removed, entity, zoneId, position, rotation }

def within (limits : Limits) (bound : Bound) (actual : Nat) : Reader DecodeError Unit :=
  match limits.check bound actual with
  | .ok () => return ()
  | .error error => throw error

def countWithin (limits : Limits) (bound : Bound) : Reader DecodeError Nat := do
  let actual := (← varu32).toNat
  within limits bound actual
  return actual

def frame (limits : Limits) : Reader DecodeError Frame := do
  let time ← varu64
  let center ← mapError .malformed (optional bit zone)
  let states ← countWithin limits .statesPerFrame
  let states ← mapError .malformed (count delta states)
  return { time, center, states }

def kind : Reader DecodeError MessageKind := do
  if (← get).isEmpty then
    throw .empty
  let version ← bits 4
  if version ≠ formatVersion then
    throw (.unsupportedVersion version)
  let code ← bits 4
  match MessageKind.ofCode? code with
  | some kind => return kind
  | none => throw (.unknownKind code)

def expectKind (expected : MessageKind) : Reader DecodeError Unit := do
  let found ← kind
  if found ≠ expected then
    throw (.unexpectedKind expected found)

/-- Succeeds if only padding can be left. -/
def finish : Reader DecodeError Unit := do
  let left := (← get).length
  if 8 ≤ left then
    throw (.trailingBits left)

def message (limits : Limits) : Reader DecodeError Message := do
  expectKind .frames
  let id ← varu64
  let sentAt ← varu64
  let acks ← countWithin limits .acksPerHeader
  let echoed ← mapError .malformed (count varu64 acks)
  let frames ← countWithin limits .framesPerMessage
  let frames ← count (frame limits) frames
  finish
  return { id, sentAt, echoed, frames }

def ack (receivedAt : Time) : Reader DecodeError Ack := do
  expectKind .ack
  let id ← varu64
  let sentAt ← varu64
  finish
  return { id, sentAt, receivedAt }

def run {ε α : Type} (read : Reader ε α) (packet : Packet) : Except ε α :=
  match read (.ofPacket packet) with
  | .ok value _ => .ok value
  | .error error _ => .error error

end Reader

/-- The kind of a received message; nothing after the leading byte is looked at. -/
def MessageKind.peek (packet : Packet) : Except DecodeError MessageKind :=
  Reader.kind.run packet

namespace Message

def decode (limits : Limits) (packet : Packet) : Except DecodeError Message :=
  match limits.check .messageBytes packet.length with
  | .ok () => (Reader.message limits).run packet
  | .error error => .error error

end Message

def Ack.decode (packet : Packet) (receivedAt : Time) : Except DecodeError Ack :=
  (Reader.ack receivedAt).run packet

end AreaReplication
