import AreaReplication.Command.Report
import AreaReplication.Sim.Summary
import AreaReplication.Sim.World

/-!
# Simulating a session

A session follows the player of a simulated world and sends to a client over a lossy connection. In
each tick the clock moves, the world moves, the session takes in what happened in the visible zones
and ends the tick; then the client gets what was sent and its acknowledgments come back. The run
keeps every message that reached the client.
-/
namespace AreaReplication.Sim

structure Scenario where
  entities : Nat := 64
  ticks : Nat := 300
  seed : UInt64 := 1
  /-- The edge of a zone. -/
  zoneSize : Binary64 := ⟨0x4040000000000000⟩
  /-- Zones from the middle of the world to each edge. -/
  worldZones : Int := 4
  ticksPerBlock : Nat := 1
  tickMs : Nat := 50
  conditions : Conditions := { lossPercent := 5, duplicatePercent := 5, ackDelay := 2 }
  churnPercent : Nat := 1
  settings : Settings := {}
  maxP95Bytes : Option Nat := none
  deriving DecidableEq, Repr

structure Capture where
  message : Message
  packet : Packet
  deriving DecidableEq, Repr

structure State where
  line : Line := {}
  session : Session
  world : World
  visible : List Zone := []
  client : Client
  /-- The sizes of the messages sent, the last one first. -/
  sizes : List Nat := []
  stats : FrameStats := {}
  /-- The messages that reached the client, the last one first. -/
  captures : List Capture := []

/-- The zones in view once the session's changes have been followed, in zone order. -/
def follow (visible : List Zone) (session : Session) : List Zone :=
  if session.zonesChanged then
    Ascending.merge id (visible.filter fun zone => !session.exited.contains zone) session.entered
  else
    visible

def deliver : List Packet → State → Except Command.Failure Unit × State
  | [], state => (.ok (), state)
  | packet :: rest, state =>
    match state.client.loses with
    | (true, client) => deliver rest { state with client }
    | (false, client) =>
      match Message.decode {} packet with
      | .error error =>
        (.error { message := "decode message", causes := [error.message] }, { state with client })
      | .ok message =>
        deliver rest { state with
          client := client.receive message
          captures := { message, packet } :: state.captures }

def answer (state : State) : State :=
  let (acks, client) := state.client.endTick
  let session := acks.foldl (fun session packet =>
    match session.postPacket packet state.line.clock with
    | .ok session => session
    | .error _ => session) state.session
  { state with session, client }

def sessionFailure (error : SendError) : Command.Failure where
  message := error.message
  causes := error.cause?.toList

def tick (scenario : Scenario) (number : Nat) (state : State) :
    Except Command.Failure Unit × State :=
  let nanos := min (scenario.tickMs * 1000000) (UInt64.size - 1)
  let line := state.line.advance (UInt64.ofNat nanos)
  let perBlock := max scenario.ticksPerBlock 1
  let lastInBlock := number % perBlock == 0 || number == scenario.ticks
  let time : Time := UInt64.ofNat number
  let (world, removed) := state.world.step
  let calls := .beginFrame ::
    (world.blocks time state.visible removed).map Session.Call.stateChanged ++ [.endFrame time]
  let ended := Session.runAll line.link calls state.session
  let state := { state with line, world, session := ended.value.2 }
  match ended.value.1 with
  | .error error => (.error (sessionFailure error), state)
  | .ok () =>
    let state := { state with
      visible := follow state.visible state.session
      stats := addStats state.stats state.session.stats }
    let closed := Session.runAll line.link (if lastInBlock then [.endBlock] else []) state.session
    let state := { state with session := closed.value.2 }
    match closed.value.1 with
    | .error error => (.error (sessionFailure error), state)
    | .ok () =>
      let packets := packetsSent (ended.events ++ closed.events)
      let state := { state with sizes := packets.reverse.map List.length ++ state.sizes }
      match deliver packets state with
      | (.error failure, state) => (.error failure, state)
      | (.ok (), state) => (.ok (), answer state)

def ticks (scenario : Scenario) : (left : Nat) → State → Except Command.Failure Unit × State
  | 0, state => (.ok (), state)
  | left + 1, state =>
    match tick scenario (scenario.ticks - left) state with
    | (.ok (), state) => ticks scenario left state
    | (.error failure, state) => (.error failure, state)

def start (scenario : Scenario) (grid : Grid) : State :=
  let zones := max scenario.worldZones 1
  let extent := scenario.zoneSize.toFloat * Float.ofInt zones
  let world := World.new grid extent scenario.seed scenario.entities scenario.churnPercent
  { session := (Session.new grid scenario.settings).setSelf world.player.id world.player.position
    world
    client := .new scenario.conditions scenario.seed }

def summarize (scenario : Scenario) (state : State) : Summary where
  entities := scenario.entities
  ticks := scenario.ticks
  seed := scenario.seed
  lossPercent := scenario.conditions.lossPercent
  maxMessageSize := state.session.outbox.sizeLimit
  sizes := state.sizes.reverse
  stats := state.stats
  client := state.client.report
  objectsSeen := state.client.views.size
  finalObjects := state.session.table.size
  ping := state.session.intake.ping.estimate

structure Outcome where
  /-- The summary, or why there is none. -/
  summary : Except Command.Failure Summary
  captures : List Capture

def run (scenario : Scenario) : Outcome :=
  match Grid.ofSize ⟨scenario.zoneSize, scenario.zoneSize, .zero⟩ with
  | .error error =>
    { summary := .error { message := "zone grid", causes := [error.message] }, captures := [] }
  | .ok grid =>
    let (result, state) := ticks scenario scenario.ticks (start scenario grid)
    let summary :=
      match result with
      | .error failure => .error failure
      | .ok () =>
        let summary := summarize scenario state
        match summary.overBudget? scenario.maxP95Bytes with
        | some reason => .error { message := reason }
        | none => .ok summary
    { summary, captures := state.captures.reverse }

end AreaReplication.Sim
