import AreaReplication.Outbox
import AreaReplication.Replica.Names

/-!
# Projecting objects into a frame

Once a tick every object is sent in ascending order of its network id: objects that nothing has
updated are marked removed first, and removals that were sent before are completed. Objects whose
removal is complete are dropped after the walk and their ids are given back. A walk that fails stays
where it is: objects already visited are as sent, and nothing is dropped.
-/
namespace AreaReplication

structure ProjectionSummary where
  emitted : Nat := 0
  marked : Nat := 0
  reaped : Nat := 0
  deriving DecidableEq, Repr

namespace Projection

structure Walk where
  table : ReplicaTable
  box : Outbox
  emitted : Nat := 0
  marked : Nat := 0
  /-- Objects whose removal is complete, the last one first. -/
  complete : List NetId := []
  deriving DecidableEq, Repr

/-- An object as it enters the frame at `time`, and whether it was marked removed for it. -/
def ready (time : Time) (replica : Replica) : Noted (Bool × Replica) := do
  let (expired, replica) := replica.expire time
  noteIf expired (.leftView replica.entity)
  return (expired, replica.advanceRemoval time)

def visit (link : Link) (time : Time) (walked : Walk) (replica : Replica) :
    Noted (Except SendError Unit × Walk) := do
  let (expired, replica) ← ready time replica
  let (state, replica) ← replica.emit time
  let (outcome, box) ← walked.box.addState link state
  let walked := { walked with
    box
    table := walked.table.put replica
    marked := walked.marked + (if expired then 1 else 0) }
  match outcome with
  | .error error => return (.error error, walked)
  | .ok () => do
    note (.queued box.nextId replica.entity replica.current state)
    return (.ok (), { walked with
      emitted := walked.emitted + 1
      complete :=
        if replica.removal = .complete then replica.netId :: walked.complete
        else walked.complete })

def walk (link : Link) (time : Time) : List Replica → Walk → Noted (Except SendError Unit × Walk)
  | [], walked => return (.ok (), walked)
  | replica :: rest, walked => do
    let (outcome, walked) ← visit link time walked replica
    match outcome with
    | .error error => return (.error error, walked)
    | .ok () => walk link time rest walked

/-- Drops the given objects and gives their ids back; `watermark` is the message that holds their
last states, or a later one. -/
def reap (watermark : MessageId) :
    List NetId → ReplicaTable → Names → Noted (ReplicaTable × Names)
  | [], table, names => return (table, names)
  | id :: rest, table, names => do
    match table.get? id with
    | some replica => note (.reaped replica.entity id)
    | none => pure ()
    let names ← names.retire id watermark
    reap watermark rest (table.erase id) names

def project (link : Link) (time : Time) (table : ReplicaTable) (names : Names) (box : Outbox) :
    Noted (Except SendError ProjectionSummary × ReplicaTable × Names × Outbox) := do
  let (outcome, walked) ← walk link time table.toList { table, box }
  match outcome with
  | .error error => return (.error error, walked.table, names, walked.box)
  | .ok () =>
    let (table, names) ← reap walked.box.nextId walked.complete.reverse walked.table names
    return (.ok { emitted := walked.emitted, marked := walked.marked,
                  reaped := walked.complete.length }, table, names, walked.box)

end Projection

end AreaReplication
