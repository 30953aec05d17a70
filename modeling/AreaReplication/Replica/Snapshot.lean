import AreaReplication.Message.Basic

/-!
# Snapshots

What an object looks like at one version.
-/
namespace AreaReplication

structure Snapshot where
  version : Version := 0
  zoneId : UInt32 := 0
  position : Vec3 := .zero
  rotation : Quat := .identity
  removed : Bool := false
  deriving DecidableEq, Repr

end AreaReplication
