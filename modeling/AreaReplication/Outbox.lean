import AreaReplication.Ascending
import AreaReplication.Link
import AreaReplication.Message.Encode
import AreaReplication.Message.Size
import AreaReplication.Replica.Table

/-!
# The outbox

Frames are gathered into one message up to a size limit. A frame that does not fit goes on in the
next message under a repeated header, so each message can be applied by itself. A message that the
transport takes is recorded until it is acknowledged or pushed out by newer ones; one that it
refuses is dropped, and its number is used again.
-/
namespace AreaReplication

def maxEchoed : Nat := 64

inductive SendError where
  | send (id : MessageId) (refusal : Refusal)
  | encode (id : MessageId) (cause : EncodeError)
  /-- The state does not fit even at the start of a message. -/
  | stateTooLarge (id : NetId) (bits limit : Nat)
  | frameNotStarted
  deriving DecidableEq, Repr

namespace SendError

def message : SendError → String
  | send id _ => s!"failed to send {id.text}"
  | encode id _ => s!"failed to encode {id.text}"
  | stateTooLarge id bits limit =>
    s!"state for {id.text} needs {bits} bits, message limit is {limit}"
  | frameNotStarted => "state added before start_frame"

def cause? : SendError → Option String
  | send _ refusal => some refusal.message
  | encode _ cause => some cause.message
  | _ => none

end SendError

structure OpenFrame where
  time : Time
  center : Option Zone
  /-- The states added so far, the last one first. -/
  added : List Delta := []
  deriving DecidableEq, Repr

def OpenFrame.close (frame : OpenFrame) : Frame where
  time := frame.time
  center := frame.center
  states := frame.added.reverse

/-- The message being filled, and what is known of the sent ones. -/
structure Outbox where
  /-- The size limit of a message in bytes. -/
  sizeLimit : Nat
  /-- How many unacknowledged messages are recorded. -/
  capacity : Nat
  /-- The number of the message being filled. -/
  nextId : MessageId := 0
  /-- The frames of the message being filled, the current one first. -/
  frames : List OpenFrame := []
  echoed : List MessageId := []
  /-- The objects and versions in the message being filled, the last one first. -/
  carried : List (NetId × Version) := []
  pendingBits : Nat := 0
  outstanding : Std.ExtTreeMap MessageId SentRecord := {}
  /-- Acknowledgments to echo in the messages to come, ascending. -/
  toEcho : List MessageId := []
  messagesSent : Nat := 0
  bytesSent : Nat := 0
  deriving DecidableEq, Repr

namespace Outbox

/-- An empty outbox; at least one message is recorded. -/
def new (sizeLimit capacity : Nat) : Outbox := { sizeLimit, capacity := max capacity 1 }

/-- The size limit in bits, as far as a 64-bit count goes. -/
def bitLimit (box : Outbox) : Nat := min (8 * box.sizeLimit) (UInt64.size - 1)

/-- Every message before this one is acknowledged or no longer recorded. -/
def settledBefore (box : Outbox) : MessageId :=
  box.outstanding.minKey?.getD box.nextId

def hasBuffered (box : Outbox) : Bool := !box.frames.isEmpty

/-- The header estimate of a message that echoes all that is to be echoed now. -/
def freshBits (box : Outbox) : Nat := messageHeaderBits box.nextId Time.last box.toEcho

def pendingMessage (link : Link) (box : Outbox) : Message where
  id := box.nextId
  sentAt := link.stamp box.nextId
  echoed := box.echoed
  frames := (box.frames.map OpenFrame.close).reverse

def emptied (box : Outbox) : Outbox :=
  { box with frames := [], echoed := [], carried := [], pendingBits := 0 }

/-- The message whose record is one too many: the oldest one, once the capacity is exceeded. -/
def surplus? (box : Outbox) : Option MessageId :=
  if box.capacity < box.outstanding.size then box.outstanding.minKey? else none

def forgetSurplus (box : Outbox) : Outbox :=
  { box with outstanding := box.surplus?.elim box.outstanding box.outstanding.erase }

def recordSent (box : Outbox) (message : Message) (bytes : Nat) : Outbox :=
  { box.emptied with
    nextId := box.nextId.next
    messagesSent := box.messagesSent + 1
    bytesSent := box.bytesSent + bytes
    outstanding := box.outstanding.insert message.id
      { id := message.id, sentAt := message.sentAt, states := box.carried.reverse,
        echoed := message.echoed } }

def flush (link : Link) (box : Outbox) : Noted (Except SendError Unit × Outbox) :=
  if box.frames.isEmpty then
    return (.ok (), box)
  else
    let message := box.pendingMessage link
    match message.encode with
    | .error cause => return (.error (.encode message.id cause), box.emptied)
    | .ok packet =>
      match link.refuses message.id with
      | some refusal => return (.error (.send message.id refusal), box.emptied)
      | none =>
        let sent := box.recordSent message packet.length
        { value := (.ok (), sent.forgetSurplus)
          events := .sent message packet :: sent.surplus?.toList.map .expired }

def pushFrame (box : Outbox) (time : Time) (center : Option Zone) : Outbox :=
  let box :=
    if box.frames.isEmpty then
      { box with echoed := box.toEcho, pendingBits := box.freshBits }
    else
      box
  { box with
    pendingBits := box.pendingBits + frameHeaderBits time center
    frames := { time, center } :: box.frames }

def flushThenPush (link : Link) (box : Outbox) (time : Time) (center : Option Zone) :
    Noted (Except SendError Unit × Outbox) := do
  let (outcome, box) ← box.flush link
  match outcome with
  | .error error => return (.error error, box)
  | .ok () => return (.ok (), box.pushFrame time center)

/-- Starts a frame, sending first if its header does not fit. -/
def startFrame (link : Link) (box : Outbox) (time : Time) (center : Option Zone) :
    Noted (Except SendError Unit × Outbox) :=
  if box.hasBuffered ∧ box.bitLimit < box.pendingBits + frameHeaderBits time center then
    box.flushThenPush link time center
  else
    return (.ok (), box.pushFrame time center)

def appendState (box : Outbox) (state : Delta) : Outbox :=
  { box with
    pendingBits := box.pendingBits + state.bitCount
    carried := (state.netId, state.version) :: box.carried
    frames := box.frames.modifyHead fun frame => { frame with added := state :: frame.added } }

/-- Appends a state to the current frame, splitting the frame when the size limit is reached. -/
def addState (link : Link) (box : Outbox) (state : Delta) :
    Noted (Except SendError Unit × Outbox) :=
  match box.frames with
  | [] => return (.error .frameNotStarted, box)
  | frame :: _ =>
    if box.bitLimit < box.pendingBits + state.bitCount then
      let needed := box.freshBits + frameHeaderBits frame.time frame.center + state.bitCount
      if box.bitLimit < needed then
        return (.error (.stateTooLarge state.netId needed box.bitLimit), box)
      else do
        note (.frameSplit frame.time)
        let (outcome, box) ← box.flushThenPush link frame.time frame.center
        match outcome with
        | .error error => return (.error error, box)
        | .ok () => return (.ok (), box.appendState state)
    else
      return (.ok (), box.appendState state)

/-- Uses up the record of an acknowledged message. The acknowledgments that it echoed have reached
the client and need no more echoing. -/
def takeRecord (box : Outbox) (id : MessageId) : Option (SentRecord × Outbox) :=
  match box.outstanding[id]? with
  | some record =>
    some (record, { box with
      outstanding := box.outstanding.erase id
      toEcho := box.toEcho.filter fun ack => !record.echoed.contains ack })
  | none => none

/-- Echoes `id` from the next message on; the oldest echoes above the limit are given up. -/
def echo (box : Outbox) (id : MessageId) : Outbox :=
  let toEcho := Ascending.insert (fun ack => ack) id box.toEcho
  { box with toEcho := toEcho.drop (toEcho.length - maxEchoed) }

end Outbox

end AreaReplication
