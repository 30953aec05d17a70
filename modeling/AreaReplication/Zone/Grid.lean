import AreaReplication.Decimal.Shortest
import AreaReplication.Zone.Basic

/-!
# The zone grid

A grid gives the size of a zone on each axis. A size of zero makes the axis flat: every position has
coordinate `0` there. Sizes are finite and not negative, and at least one axis is not flat.
-/
namespace AreaReplication

def Vec3.component (v : Vec3) : Axis → Binary64
  | .x => v.x
  | .y => v.y
  | .z => v.z

inductive GridError where
  | invalidSize (axis : Axis) (size : Binary64)
  | allFlat
  deriving DecidableEq, Repr

def GridError.message : GridError → String
  | invalidSize axis size => s!"invalid cell size {Decimal.plain size} on axis {axis.name}"
  | allFlat => "zone grid has no partitioned axis"

structure Grid where
  size : Vec3
  deriving DecidableEq, Repr

namespace Grid

def usable (size : Binary64) : Bool := size.isFinite && (!size.isNegative || size.isZero)

/-- The grid of the given sizes; the first axis at fault is reported. -/
def ofSize (size : Vec3) : Except GridError Grid :=
  match Axis.all.find? fun axis => !usable (size.component axis) with
  | some axis => .error (.invalidSize axis (size.component axis))
  | none =>
    if Axis.all.all fun axis => (size.component axis).isZero then
      .error .allFlat
    else
      .ok ⟨size⟩

def isFlat (grid : Grid) (axis : Axis) : Bool := (grid.size.component axis).isZero

def activeAxes (grid : Grid) : List Axis := Axis.all.filter fun axis => !grid.isFlat axis

/-- The coordinate of the zone that holds `value` on an axis. A quotient out of range goes to the
end of the range, and NaN to zero. -/
def coordinate (grid : Grid) (axis : Axis) (value : Binary64) : Int32 :=
  if grid.isFlat axis then
    0
  else
    (value.toFloat / (grid.size.component axis).toFloat).floor.toInt32

def zoneAt (grid : Grid) (position : Vec3) : Zone where
  x := grid.coordinate .x position.x
  y := grid.coordinate .y position.y
  z := grid.coordinate .z position.z

def origin (grid : Grid) (zone : Zone) : Vec3 where
  x := .ofFloat (zone.x.toFloat * grid.size.x.toFloat)
  y := .ofFloat (zone.y.toFloat * grid.size.y.toFloat)
  z := .ofFloat (zone.z.toFloat * grid.size.z.toFloat)

end Grid

end AreaReplication
