import AreaReplication.Sim.Random
import AreaReplication.Zone.Block
import AreaReplication.Zone.Grid

/-!
# A world of walkers

A player and a number of walkers move about a square world and turn back at its edges. Now and then
a walker takes a new direction, or is replaced by a new one elsewhere. As a zone manager would, the
world reports each tick what happened in the zones that the client sees.
-/
namespace AreaReplication.Sim

/-- An entity on its way. It stays in the plane, so its height never changes. -/
structure Walker where
  id : EntityId
  x : Float
  y : Float
  dx : Float
  dy : Float
  yaw : Float

namespace Walker

def position (walker : Walker) : Vec3 := ⟨.ofFloat walker.x, .ofFloat walker.y, .zero⟩

def rotation (walker : Walker) : Quat :=
  let half := walker.yaw * 0.5
  ⟨.zero, .zero, .ofFloat half.sin, .ofFloat half.cos⟩

/-- One coordinate and its speed after a step; the edge throws the walker back. -/
def bounce (extent place speed : Float) : Float × Float :=
  let place := place + speed
  if extent < place then (extent, -speed)
  else if place < -extent then (-extent, -speed)
  else (place, speed)

def advance (extent : Float) (walker : Walker) : Walker :=
  let (x, dx) := bounce extent walker.x walker.dx
  let (y, dy) := bounce extent walker.y walker.dy
  { walker with x, y, dx, dy }

def fullTurn : Float := 6.283185307179586

def wrapTurn (angle : Float) : Float := if angle < fullTurn then angle else angle - fullTurn

def spawn (extent : Float) (id : EntityId) (random : Random) : Walker × Random :=
  let (x, random) := random.between (-extent) extent
  let (y, random) := random.between (-extent) extent
  let (dx, random) := random.between (-2) 2
  let (dy, random) := random.between (-2) 2
  let (yaw, random) := random.between 0 fullTurn
  ({ id, x, y, dx, dy, yaw }, random)

end Walker

structure World where
  grid : Grid
  random : Random
  /-- The distance from the middle to each edge. -/
  extent : Float
  churnPercent : Nat
  nextId : EntityId
  player : Walker
  walkers : List Walker

namespace World

def spawnAll (extent : Float) : (count : Nat) → EntityId → Random → List Walker × Random
  | 0, _, random => ([], random)
  | count + 1, id, random =>
    let (walker, random) := Walker.spawn extent id random
    let (walkers, random) := spawnAll extent count (id + 1) random
    (walker :: walkers, random)

def new (grid : Grid) (extent : Float) (seed : UInt64) (walkers churnPercent : Nat) : World :=
  let (spawned, random) := spawnAll extent walkers 1 ⟨seed⟩
  { grid, random, extent, churnPercent
    nextId := UInt64.ofNat (walkers + 1)
    player := { id := 0, x := 0, y := 0, dx := 1.5, dy := 0.7, yaw := 0 }
    walkers := spawned }

/-- Moves the walkers in order. A replaced one is listed with the zone it was in. -/
def stepWalkers (grid : Grid) (extent : Float) (churnPercent : Nat) :
    List Walker → EntityId → Random →
      List Walker × List (EntityId × Zone) × EntityId × Random
  | [], nextId, random => ([], [], nextId, random)
  | walker :: rest, nextId, random =>
    let (replaced, random) := random.percent churnPercent
    if replaced then
      let gone := (walker.id, grid.zoneAt walker.position)
      let (walker, random) := Walker.spawn extent nextId random
      let (walkers, removed, nextId, random) :=
        stepWalkers grid extent churnPercent rest (nextId + 1) random
      (walker :: walkers, gone :: removed, nextId, random)
    else
      let (turns, random) := random.percent 5
      let (walker, random) :=
        if turns then
          let (dx, random) := random.between (-2) 2
          let (dy, random) := random.between (-2) 2
          ({ walker with dx, dy }, random)
        else
          (walker, random)
      let (turn, random) := random.between 0 0.1
      let walker := ({ walker with yaw := Walker.wrapTurn (walker.yaw + turn) }).advance extent
      let (walkers, removed, nextId, random) :=
        stepWalkers grid extent churnPercent rest nextId random
      (walker :: walkers, removed, nextId, random)

def step (world : World) : World × List (EntityId × Zone) :=
  let (walkers, removed, nextId, random) :=
    stepWalkers world.grid world.extent world.churnPercent world.walkers world.nextId world.random
  ({ world with player := world.player.advance world.extent, walkers, nextId, random }, removed)

/-- The blocks of the tick at `time`: one for each visible zone in which something happened. -/
def blocks (world : World) (time : Time) (visible : List Zone)
    (removed : List (EntityId × Zone)) : List StateBlock :=
  let placed := (world.player :: world.walkers).map fun walker =>
    (world.grid.zoneAt walker.position,
      ({ entity := walker.id, position := walker.position, rotation := walker.rotation } :
        EntityState))
  let all := visible.map fun zone =>
    { time, zone
      updates := placed.filterMap fun entry => if entry.1 = zone then some entry.2 else none
      removals := removed.filterMap fun entry => if entry.2 = zone then some entry.1 else none }
  all.filter fun (block : StateBlock) => !block.isEmpty

end World

end AreaReplication.Sim
