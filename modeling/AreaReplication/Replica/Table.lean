import AreaReplication.Replica.Basic
import Std.Data.ExtTreeMap

/-!
# The objects of a connection

Replicas under their network ids, and what an acknowledged message does to them.
-/
namespace AreaReplication

/-- What a sent message carried, kept until the client acknowledges it. -/
structure SentRecord where
  id : MessageId
  sentAt : Time
  states : List (NetId × Version)
  echoed : List MessageId
  deriving DecidableEq, Repr

structure ReplicaTable where
  replicas : Std.ExtTreeMap NetId Replica := {}
  historyCapacity : Nat
  deriving DecidableEq, Repr

structure TableCommit where
  moved : Nat
  /-- No version had left its history too early. -/
  settled : Bool
  deriving DecidableEq, Repr

namespace ReplicaTable

def get? (table : ReplicaTable) (id : NetId) : Option Replica := table.replicas[id]?

def toList (table : ReplicaTable) : List Replica := table.replicas.toList.map (·.2)

def put (table : ReplicaTable) (replica : Replica) : ReplicaTable :=
  { table with replicas := table.replicas.insert replica.netId replica }

def getOrNew (table : ReplicaTable) (id : NetId) (entity : EntityId) : Replica :=
  (table.get? id).getD (.new id entity table.historyCapacity)

def erase (table : ReplicaTable) (id : NetId) : ReplicaTable :=
  { table with replicas := table.replicas.erase id }

def size (table : ReplicaTable) : Nat := table.replicas.size

/-- Confirms each version that the message `acked` carried; objects that are gone need nothing. -/
def commitStates (acked : MessageId) :
    List (NetId × Version) → ReplicaTable → Noted (TableCommit × ReplicaTable)
  | [], table => return ({ moved := 0, settled := true }, table)
  | (id, version) :: rest, table =>
    match table.get? id with
    | none => commitStates acked rest table
    | some replica => do
      let (outcome, replica) := replica.commit version
      noteIf (outcome == .missing) (.versionLost id version acked)
      let (result, table) ← commitStates acked rest (table.put replica)
      return ({ moved := result.moved + (if outcome = .moved then 1 else 0)
                settled := result.settled && outcome.isSettled }, table)

def commit (table : ReplicaTable) (record : SentRecord) : Noted (TableCommit × ReplicaTable) :=
  commitStates record.id record.states table

end ReplicaTable

end AreaReplication
