import AreaReplication.Event
import Std.Data.ExtTreeMap
import Std.Data.ExtTreeSet

/-!
# Network ids

Entities are known on a connection by small numbers. The smallest free one is given out; one that
is given back stays in quarantine until every message that may still mention it is settled.
-/
namespace AreaReplication

/-- The numbers from the first one up to `next`: in use, free, or in quarantine. -/
structure Names where
  /-- The least number never given out. -/
  next : NetId
  /-- Numbers given back and out of quarantine. -/
  free : Std.ExtTreeSet NetId := {}
  entities : Std.ExtTreeMap NetId EntityId := {}
  ids : Std.ExtTreeMap EntityId NetId := {}
  /-- Numbers given back, with the last message that may mention each, the latest first. -/
  quarantine : List (MessageId × NetId) := []
  deriving DecidableEq, Repr

namespace Names

def idOf? (names : Names) (entity : EntityId) : Option NetId := names.ids[entity]?

def entityOf? (names : Names) (id : NetId) : Option EntityId := names.entities[id]?

/-- The number to give out next, and the table without it; none if all are taken. -/
def take? (names : Names) : Option (NetId × Names) :=
  match names.free.min? with
  | some id => some (id, { names with free := names.free.erase id })
  | none =>
    if names.next.toNat + 1 < UInt32.size then
      some (names.next, { names with next := names.next + 1 })
    else
      none

def assign (names : Names) (entity : EntityId) : Noted (Option NetId × Names) :=
  match names.idOf? entity with
  | some id => return (some id, names)
  | none =>
    match names.take? with
    | some (id, rest) => do
      note (.idAssigned id entity)
      return (some id, { rest with
        entities := rest.entities.insert id entity
        ids := rest.ids.insert entity id })
    | none => return (none, names)

/-- Takes `id` away from its entity. `watermark` is the last message that may mention it. -/
def retire (names : Names) (id : NetId) (watermark : MessageId) : Noted Names :=
  match names.entityOf? id with
  | some entity => do
    note (.idRetired id entity watermark)
    return { names with
      entities := names.entities.erase id
      ids := names.ids.erase entity
      quarantine := (watermark, id) :: names.quarantine }
  | none => return names

/-- The quarantined numbers that go free once every message before `settledBefore` is settled, in
the order in which they were given back. -/
def released (names : Names) (settledBefore : MessageId) : List (MessageId × NetId) :=
  names.quarantine.reverse.takeWhile fun entry => entry.1 < settledBefore

def release (names : Names) (settledBefore : MessageId) : Nat × Names :=
  let released := names.released settledBefore
  (released.length,
    { names with
      free := released.foldl (fun free entry => free.insert entry.2) names.free
      quarantine := names.quarantine.take (names.quarantine.length - released.length) })

def size (names : Names) : Nat := names.entities.size

end Names

end AreaReplication
