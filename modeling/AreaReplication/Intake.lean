import AreaReplication.Message.Decode
import AreaReplication.Outbox
import AreaReplication.Ping

/-!
# Acknowledgments

Acknowledgments queue up as they arrive and are worked off once a tick. One whose message is still
recorded moves the baselines of the objects that the message carried. It is echoed to the client,
which may then forget older versions, only if every one of those baselines is in place; if a version
had already left its history, the server still counts on something older.
-/
namespace AreaReplication

structure Intake where
  queue : List Ack := []
  ping : Ping
  deriving DecidableEq, Repr

structure IntakeSummary where
  processed : Nat := 0
  committed : Nat := 0
  /-- Acknowledgments used up without an echo. -/
  unconfirmed : Nat := 0
  deriving DecidableEq, Repr

namespace Intake

def post (intake : Intake) (ack : Ack) : Intake := { intake with queue := intake.queue ++ [ack] }

def postPacket (intake : Intake) (packet : Packet) (now : Time) : Except DecodeError Intake :=
  (Ack.decode packet now).map intake.post

def pending (intake : Intake) : Nat := intake.queue.length

def settle (box : Outbox) (table : ReplicaTable) (id : MessageId) :
    Noted (IntakeSummary × Outbox × ReplicaTable) :=
  match box.takeRecord id with
  | none => do
    note (.ackIgnored id)
    return ({ processed := 1 }, box, table)
  | some (record, box) => do
    let (commit, table) ← table.commit record
    if commit.settled then
      return ({ processed := 1, committed := commit.moved }, box.echo record.id, table)
    else
      return ({ processed := 1, committed := commit.moved, unconfirmed := 1 }, box, table)

def settleAll : List Ack → Ping → Outbox → ReplicaTable →
    Noted (IntakeSummary × Ping × Outbox × ReplicaTable)
  | [], ping, box, table => return ({}, ping, box, table)
  | ack :: rest, ping, box, table => do
    let ping ← ping.record ack.roundTrip
    let (first, box, table) ← settle box table ack.id
    let (others, ping, box, table) ← settleAll rest ping box table
    return ({ processed := first.processed + others.processed
              committed := first.committed + others.committed
              unconfirmed := first.unconfirmed + others.unconfirmed }, ping, box, table)

def drain (intake : Intake) (box : Outbox) (table : ReplicaTable) :
    Noted (IntakeSummary × Intake × Outbox × ReplicaTable) := do
  let (summary, ping, box, table) ← settleAll intake.queue intake.ping box table
  return (summary, { queue := [], ping }, box, table)

end Intake

end AreaReplication
