import AreaReplication.Message.Basic

/-!
# State blocks

What happened in one zone during one tick, as a zone manager reports it.
-/
namespace AreaReplication

structure EntityState where
  entity : EntityId
  position : Vec3
  rotation : Quat := .identity
  deriving DecidableEq, Repr

structure StateBlock where
  time : Time
  zone : Zone
  updates : List EntityState := []
  removals : List EntityId := []
  deriving DecidableEq, Repr

def StateBlock.isEmpty (block : StateBlock) : Bool :=
  block.updates.isEmpty && block.removals.isEmpty

end AreaReplication
