/-!
# Zones

The world is cut into box-shaped zones, each named by integer coordinates on the three axes. Moving
by an offset stops at the ends of the coordinate range, and zones are ordered by `x`, then `y`,
then `z`.
-/
namespace AreaReplication

inductive Axis where
  | x
  | y
  | z
  deriving DecidableEq, Repr

namespace Axis

def all : List Axis := [x, y, z]

def index : Axis → Nat
  | x => 0
  | y => 1
  | z => 2

def name : Axis → String
  | x => "x"
  | y => "y"
  | z => "z"

end Axis

structure Zone where
  x : Int32
  y : Int32
  z : Int32
  deriving DecidableEq, Repr

namespace Zone

def coordinate (zone : Zone) : Axis → Int32
  | .x => zone.x
  | .y => zone.y
  | .z => zone.z

def minCoordinate : Int := -2147483648

def maxCoordinate : Int := 2147483647

def clamp (value : Int) : Int32 :=
  Int32.ofInt (max minCoordinate (min maxCoordinate value))

/-- The zone displaced by the given numbers of zones, stopping at the end of each axis. -/
def offset (zone : Zone) (dx dy dz : Int32) : Zone where
  x := clamp (zone.x.toInt + dx.toInt)
  y := clamp (zone.y.toInt + dy.toInt)
  z := clamp (zone.z.toInt + dz.toInt)

def distance (a b : Zone) : Nat :=
  max (max (a.x.toInt - b.x.toInt).natAbs (a.y.toInt - b.y.toInt).natAbs)
    (a.z.toInt - b.z.toInt).natAbs

def order (a b : Zone) : Ordering :=
  (compare a.x.toInt b.x.toInt).then
    ((compare a.y.toInt b.y.toInt).then (compare a.z.toInt b.z.toInt))

instance : LT Zone := ⟨fun a b => a.order b = .lt⟩

instance : DecidableLT Zone := fun a b => inferInstanceAs (Decidable (a.order b = .lt))

def text (zone : Zone) : String :=
  s!"({zone.x.toInt}, {zone.y.toInt}, {zone.z.toInt})"

end Zone

end AreaReplication
