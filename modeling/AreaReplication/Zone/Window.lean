import AreaReplication.Zone.Grid

/-!
# The window of visible zones

A connection sees the zones around the one that holds its own entity: all within `radius` on every
axis that is not flat. Inside the window each zone has a number from 1 on, counted along `x`, then
`y`, then `z`; the numbers change only when the center moves. At the ends of the coordinate range
the window is cut off.
-/
namespace AreaReplication

/-- The zones around a center; there is none before the first move. -/
structure Window where
  grid : Grid
  radius : Nat
  center : Option Zone := none
  deriving DecidableEq, Repr

structure Window.Move where
  window : Window
  changed : Bool
  entered : List Zone
  exited : List Zone
  deriving DecidableEq, Repr

namespace Window

def side (window : Window) : Nat := 2 * window.radius + 1

def size (window : Window) : Nat := Nat.pow window.side window.grid.activeAxes.length

/-- No move goes further than the largest coordinate. -/
def reach (window : Window) : Nat := min window.radius Zone.maxCoordinate.toNat

def span (window : Window) (axis : Axis) (center : Int32) : List Int32 :=
  if window.grid.isFlat axis then
    [center]
  else
    let low := max Zone.minCoordinate (center.toInt - window.reach)
    let high := min Zone.maxCoordinate (center.toInt + window.reach)
    (List.range (high - low + 1).toNat).map fun step : Nat => Int32.ofInt (low + step)

def zonesAround (window : Window) (center : Zone) : List Zone :=
  (window.span .x center.x).flatMap fun x =>
    (window.span .y center.y).flatMap fun y =>
      (window.span .z center.z).map fun z => ⟨x, y, z⟩

def zones (window : Window) : List Zone :=
  (window.center.map window.zonesAround).getD []

def sees (window : Window) (center zone : Zone) : Bool :=
  Axis.all.all fun axis =>
    let away := (zone.coordinate axis).toInt - (center.coordinate axis).toInt
    if window.grid.isFlat axis then away == 0 else decide (away.natAbs ≤ window.reach)

/-- The place of `zone` in the window around `center`, counted from zero along the given axes; the
first one has the least weight. -/
def place (window : Window) (center zone : Zone) : List Axis → Option Nat
  | [] => some 0
  | axis :: axes =>
    let away := (zone.coordinate axis).toInt - (center.coordinate axis).toInt
    if window.grid.isFlat axis then
      if away = 0 then window.place center zone axes else none
    else if away.natAbs ≤ window.radius then
      match window.place center zone axes with
      | some higher => some ((away + window.radius).toNat + window.side * higher)
      | none => none
    else
      none

/-- The number of `zone` in the window, from 1 on. -/
def zoneId (window : Window) (zone : Zone) : Option UInt32 :=
  match window.center with
  | none => none
  | some center =>
    match window.place center zone Axis.all with
    | some place => if place + 1 < UInt32.size then some (UInt32.ofNat (place + 1)) else none
    | none => none

def contains (window : Window) (zone : Zone) : Bool := (window.zoneId zone).isSome

/-- Moves the center to `next`; a center that stays changes nothing. -/
def centerOn (window : Window) (next : Zone) : Move :=
  if window.center = some next then
    { window, changed := false, entered := [], exited := [] }
  else
    let moved := { window with center := some next }
    match window.center with
    | none => { window := moved, changed := true, entered := moved.zones, exited := [] }
    | some old =>
      { window := moved
        changed := true
        entered := moved.zones.filter fun zone => !window.sees old zone
        exited := window.zones.filter fun zone => !window.sees next zone }

def follow (window : Window) (position : Vec3) : Move :=
  window.centerOn (window.grid.zoneAt position)

end Window

end AreaReplication
