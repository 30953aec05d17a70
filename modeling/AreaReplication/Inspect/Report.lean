import AreaReplication.Message.Decode
import AreaReplication.Message.Size

/-!
# Where the bytes of a message go

A breakdown of one captured message, frame by frame.
-/
namespace AreaReplication

structure FrameReport where
  time : Time
  center : Option Zone
  states : Nat
  full : Nat
  removed : Nat
  bits : Nat
  deriving DecidableEq, Repr

def FrameReport.ofFrame (frame : Frame) : FrameReport where
  time := frame.time
  center := frame.center
  states := frame.states.length
  full := frame.states.countP Delta.isFull
  removed := frame.states.countP Delta.removed
  bits := frame.bitCount

inductive InspectReport where
  | ack (id : MessageId) (sentAt : Time)
  | frames (id : MessageId) (sentAt : Time) (byteCount echoed : Nat) (frames : List FrameReport)
  deriving DecidableEq, Repr

namespace InspectReport

def ofPacket (limits : Limits) (packet : Packet) : Except DecodeError InspectReport := do
  match ← MessageKind.peek packet with
  | .ack =>
    let ack ← Ack.decode packet 0
    return .ack ack.id ack.sentAt
  | .frames =>
    let message ← Message.decode limits packet
    return .frames message.id message.sentAt packet.length message.echoed.length
      (message.frames.map FrameReport.ofFrame)

end InspectReport

def FrameReport.line (report : FrameReport) : String :=
  let center := (report.center.map Zone.text).getD "none"
  s!"  time {report.time.toNat} center {center}: {report.states} states " ++
    s!"({report.full} full, {report.removed} removed), <= {Bits.byteCount report.bits} bytes\n"

def InspectReport.text : InspectReport → String
  | ack id sentAt => s!"ack for {id.text} (sent_time {sentAt.toNat})\n"
  | frames id sentAt byteCount echoed parts =>
    s!"{id.text} sent_time: {sentAt.toNat} size: {byteCount} bytes echoed acks: {echoed}\n" ++
      "frames:\n" ++ String.join (parts.map FrameReport.line)

end AreaReplication
