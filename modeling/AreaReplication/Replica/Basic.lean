import AreaReplication.Event

/-!
# Replicated objects

The server's view of one object on one connection: its current snapshot, the baseline that the
client has confirmed, and the sent snapshots that the client may still confirm. A removed object is
kept until its removal has been sent in an earlier frame; an update before that revives it.
-/
namespace AreaReplication

inductive Removal where
  | active
  /-- Removed; the client still has to be told. -/
  | marked
  /-- The removal was sent in an earlier frame. -/
  | complete
  deriving DecidableEq, Repr

inductive Commit where
  /-- The baseline moved to the version. -/
  | moved
  /-- The baseline was at or past the version. -/
  | covered
  /-- The version is no longer held. -/
  | missing
  deriving DecidableEq, Repr

def Commit.isSettled (commit : Commit) : Bool := commit != .missing

structure Replica where
  netId : NetId
  entity : EntityId
  current : Snapshot := {}
  /-- The zone that last updated or removed the object. -/
  lastZone : Option Zone := none
  /-- The newest snapshot that the client is known to hold. -/
  baseline : Option Snapshot := none
  /-- Sent snapshots newer than the baseline. -/
  history : History Snapshot
  removal : Removal := .active
  /-- The frame that first carried the removal. -/
  removalSentAt : Option Time := none
  deriving DecidableEq, Repr

namespace Replica

def new (netId : NetId) (entity : EntityId) (historyCapacity : Nat) : Replica :=
  { netId, entity, history := .ofCapacity historyCapacity }

def version (replica : Replica) : Version := replica.current.version

def baselineVersion (replica : Replica) : Option Version := replica.baseline.map Snapshot.version

/-- The object is there again. If the client may know of the removal, it starts over with nothing
confirmed. -/
def revive (replica : Replica) : Replica :=
  if replica.removal = .active then
    replica
  else if replica.removalSentAt.isSome then
    { replica with
      baseline := none
      history := replica.history.clear
      removal := .active
      removalSentAt := none }
  else
    { replica with removal := .active }

/-- Takes over an update from `zone` at `time`, unless it is older than the current version. Says
whether it was taken over. -/
def update (replica : Replica) (time : Time) (zone : Zone) (zoneId : UInt32) (position : Vec3)
    (rotation : Quat) : Noted (Bool × Replica) :=
  if time < replica.version then
    return (false, replica)
  else do
    noteIf (replica.removal != .active && replica.removalSentAt.isSome)
      (.removalUndone replica.netId)
    return (true, { replica.revive with
      current := { version := time, zoneId, position, rotation, removed := false }
      lastZone := some zone })

/-- Marks the object removed at `time`, unless it is removed already or `time` is older than the
current version. Says whether it did. -/
def remove (replica : Replica) (time : Time) : Bool × Replica :=
  if replica.removal ≠ .active ∨ time < replica.version then
    (false, replica)
  else
    (true, { replica with
      current := { replica.current with version := time, removed := true }
      removal := .marked })

/-- At `time` another zone has updated the object, which therefore has only crossed a border. -/
def crossedFrom (replica : Replica) (time : Time) (zone : Zone) : Bool :=
  replica.version = time && !replica.current.removed &&
    replica.lastZone.any fun last => last ≠ zone

/-- Takes over a removal that `zone` reports at `time`, unless the object has crossed into another
zone. Says whether it was taken over. -/
def removeFrom (replica : Replica) (time : Time) (zone : Zone) : Bool × Replica :=
  if replica.crossedFrom time zone then
    (false, replica)
  else
    match replica.remove time with
    | (true, removed) => (true, { removed with lastZone := some zone })
    | (false, same) => (false, same)

def expire (replica : Replica) (time : Time) : Bool × Replica :=
  if replica.removal = .active ∧ replica.version < time then
    replica.remove time
  else
    (false, replica)

/-- Completes a removal that an earlier frame than `time` carried. -/
def advanceRemoval (replica : Replica) (time : Time) : Replica :=
  if replica.removal = .marked ∧ replica.removalSentAt.any fun sent => sent < time then
    { replica with removal := .complete }
  else
    replica

def delta (replica : Replica) : Delta :=
  let current := replica.current
  match replica.baseline with
  | none =>
    { netId := replica.netId
      version := current.version
      removed := current.removed
      entity := some replica.entity
      zoneId := some current.zoneId
      position := some current.position
      rotation := some current.rotation }
  | some base =>
    { netId := replica.netId
      version := current.version
      baseline := some base.version
      removed := current.removed
      zoneId := if current.zoneId ≠ base.zoneId then some current.zoneId else none
      position := if current.position.same base.position then none else some current.position
      rotation := if current.rotation.same base.rotation then none else some current.rotation }

/-- The client can already confirm the current version. -/
def isRecorded (replica : Replica) : Bool :=
  replica.history.lastVersion = some replica.version ||
    replica.baselineVersion = some replica.version

def recordCurrent (replica : Replica) : Noted Replica :=
  if replica.isRecorded then
    return replica
  else
    match replica.history.insert replica.version replica.current with
    | .ok history => return { replica with history }
    | .error error => do
      note (.historyRefused replica.netId error)
      return replica

def emit (replica : Replica) (time : Time) : Noted (Delta × Replica) := do
  let recorded ← replica.recordCurrent
  let sentAt :=
    if replica.current.removed && replica.removalSentAt.isNone then
      some time
    else
      replica.removalSentAt
  return (replica.delta, { recorded with removalSentAt := sentAt })

/-- The client holds `version`: it becomes the baseline if it is newer and still in the history. -/
def commit (replica : Replica) (version : Version) : Commit × Replica :=
  if replica.baselineVersion.any fun base => version ≤ base then
    (.covered, replica)
  else
    match replica.history.get? version with
    | some snapshot =>
      (.moved, { replica with
        baseline := some snapshot
        history := replica.history.dropThrough version })
    | none => (.missing, replica)

end Replica

end AreaReplication
