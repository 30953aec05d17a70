import AreaReplication.Binary64
import AreaReplication.Zone.Basic

/-!
# Messages

The server sends messages of frames; a frame holds one tick's object states, each complete or
relative to a version that the client confirmed. The client answers a message with an
acknowledgment, and later messages echo the acknowledgments that the server has acted on.
-/
namespace AreaReplication

/-- A stable name of an entity, given by the simulation. -/
abbrev EntityId := UInt64

/-- A compact name of an object on one connection. -/
abbrev NetId := UInt32

abbrev MessageId := UInt64

/-- A point in time: a tick number or nanoseconds of a clock. -/
abbrev Time := UInt64

def Time.last : Time := 0xffffffffffffffff

/-- The version of an object is the time of the tick that last changed it. -/
abbrev Version := UInt64

def EntityId.text (id : EntityId) : String := s!"entity#{id.toNat}"

def NetId.text (id : NetId) : String := s!"net#{id.toNat}"

def MessageId.text (id : MessageId) : String := s!"frame#{id.toNat}"

/-- The next message number; the last one is its own successor. -/
def MessageId.next (id : MessageId) : MessageId :=
  if id.toNat + 1 < UInt64.size then id + 1 else id

/-- One object's state in one frame. Without a baseline it is complete; otherwise a field is present
only if it differs from the baseline version, which the client holds. -/
structure Delta where
  netId : NetId
  version : Version
  baseline : Option Version := none
  removed : Bool := false
  entity : Option EntityId := none
  zoneId : Option UInt32 := none
  position : Option Vec3 := none
  rotation : Option Quat := none
  deriving DecidableEq, Repr

namespace Delta

def isFull (delta : Delta) : Bool := delta.baseline.isNone

def isUnchanged (delta : Delta) : Bool :=
  !delta.removed && delta.entity.isNone && delta.zoneId.isNone && delta.position.isNone &&
    delta.rotation.isNone

end Delta

structure Frame where
  time : Time
  center : Option Zone := none
  states : List Delta := []
  deriving DecidableEq, Repr

/-- One transmitted message. A frame that does not fit goes on in the next message under the same
time and center. -/
structure Message where
  id : MessageId
  sentAt : Time
  echoed : List MessageId := []
  frames : List Frame := []
  deriving DecidableEq, Repr

namespace Message

def states (message : Message) : List Delta := message.frames.flatMap Frame.states

def stateCount (message : Message) : Nat := message.states.length

end Message

/-- A client's confirmation of one message, stamped on arrival with the clock that stamped the
message when it was sent. -/
structure Ack where
  id : MessageId
  sentAt : Time
  receivedAt : Time := 0
  deriving DecidableEq, Repr

/-- Nanoseconds from sending to arrival; zero if the stamps are in the wrong order. -/
def Ack.roundTrip (ack : Ack) : Nat := ack.receivedAt.toNat - ack.sentAt.toNat

inductive MessageKind where
  /-- Server to client: frames of object states. -/
  | frames
  /-- Client to server: an acknowledgment. -/
  | ack
  deriving DecidableEq, Repr

namespace MessageKind

def code : MessageKind → Nat
  | frames => 1
  | ack => 2

def ofCode? : Nat → Option MessageKind
  | 1 => some frames
  | 2 => some ack
  | _ => none

def name : MessageKind → String
  | frames => "Frames"
  | ack => "Ack"

end MessageKind

end AreaReplication
