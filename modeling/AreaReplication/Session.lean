import AreaReplication.Intake
import AreaReplication.Projection
import AreaReplication.Settings
import AreaReplication.Zone.Block
import AreaReplication.Zone.Window

/-!
# A client session

One client's view of the world. A zone manager reports what happened in the zones that the client
sees, tick by tick; at the end of a tick the acknowledgments are worked off, every object is sent,
and last the window follows the client's own entity, so that zone numbers hold still while a tick is
taken in. `Call` lists the operations and `run` performs any of them.
-/
namespace AreaReplication

/-- What the last successful end of a tick did. -/
structure FrameStats where
  time : Time := 0
  acksProcessed : Nat := 0
  baselinesCommitted : Nat := 0
  acksUnconfirmed : Nat := 0
  statesEmitted : Nat := 0
  markedRemoved : Nat := 0
  reaped : Nat := 0
  idsReleased : Nat := 0
  deriving DecidableEq, Repr

structure Session where
  settings : Settings
  window : Window
  names : Names
  table : ReplicaTable
  outbox : Outbox
  intake : Intake
  /-- The client's own entity. -/
  self : Option EntityId := none
  selfPosition : Vec3 := .zero
  /-- The lists of entered and exited zones have not been cleared since the center moved. -/
  zonesChanged : Bool := false
  entered : List Zone := []
  exited : List Zone := []
  stats : FrameStats := {}
  deriving DecidableEq, Repr

namespace Session

def new (grid : Grid) (settings : Settings) : Session where
  settings
  window := { grid, radius := settings.zoneRadius }
  names := { next := settings.firstNetId }
  table := { historyCapacity := settings.historyCapacity }
  outbox := .new settings.maxMessageSize settings.maxOutstanding
  intake := { ping := { window := settings.pingWindow, threshold := settings.pingThreshold } }

/-- Names the client's own entity; the window follows it from the end of the next tick on. -/
def setSelf (session : Session) (entity : EntityId) (position : Vec3) : Session :=
  { session with self := some entity, selfPosition := position }

def setSizeLimit (session : Session) (bytes : Nat) : Session :=
  { session with outbox := { session.outbox with sizeLimit := bytes } }

def post (session : Session) (ack : Ack) : Session :=
  { session with intake := session.intake.post ack }

def postPacket (session : Session) (packet : Packet) (now : Time) : Except DecodeError Session :=
  (session.intake.postPacket packet now).map fun intake => { session with intake }

/-- Starts a tick: the zones reported as entered and exited have been dealt with. -/
def beginFrame (session : Session) : Session :=
  if session.zonesChanged then
    { session with entered := [], exited := [], zonesChanged := false }
  else
    session

def applyUpdate (block : StateBlock) (zoneId : UInt32) (session : Session) (state : EntityState) :
    Noted Session := do
  let (id, names) ← session.names.assign state.entity
  let session := { session with names }
  match id with
  | none => do
    note (.idsExhausted state.entity)
    return session
  | some id =>
    let replica := session.table.getOrNew id state.entity
    let (fresh, replica) ←
      replica.update block.time block.zone zoneId state.position state.rotation
    let session := { session with table := session.table.put replica }
    if fresh then
      return if session.self = some state.entity then
        { session with selfPosition := state.position }
      else
        session
    else do
      note (.staleUpdate state.entity block.time)
      return session

/-- Takes in one removal of a block; entities that are not tracked are left alone. -/
def applyRemoval (block : StateBlock) (session : Session) (entity : EntityId) : Session :=
  match session.names.idOf? entity with
  | none => session
  | some id =>
    match session.table.get? id with
    | none => session
    | some replica =>
      { session with table := session.table.put (replica.removeFrom block.time block.zone).2 }

/-- The number that the objects of a block get as their zone; zero outside the window. -/
def blockZoneId (session : Session) (block : StateBlock) : UInt32 :=
  (session.window.zoneId block.zone).getD 0

/-- Takes in what happened in one zone: the updates, then the removals. -/
def stateChanged (session : Session) (block : StateBlock) : Noted Session := do
  noteIf (!session.window.contains block.zone) (.zoneOutOfView block.zone block.time)
  let zoneId := session.blockZoneId block
  let session ← block.updates.foldlM (applyUpdate block zoneId) session
  return block.removals.foldl (applyRemoval block) session

def recenter (session : Session) : Noted Session :=
  if session.self.isSome then
    let move := session.window.follow session.selfPosition
    if move.changed then
      let entered := session.entered ++ move.entered
      let exited := session.exited ++ move.exited
      do
      note (.centered move.window.center entered.length exited.length)
      return { session with window := move.window, entered, exited, zonesChanged := true }
    else
      return session
  else
    return session

/-- Ends a tick. A failure leaves all that was done before it. -/
def endFrame (link : Link) (session : Session) (time : Time) :
    Noted (Except SendError Unit × Session) := do
  let (acks, intake, outbox, table) ← session.intake.drain session.outbox session.table
  let (idsReleased, names) := session.names.release outbox.settledBefore
  let session := { session with intake, outbox, table, names }
  let (started, outbox) ← session.outbox.startFrame link time session.window.center
  let session := { session with outbox }
  match started with
  | .error error => return (.error error, session)
  | .ok () =>
    let (projected, table, names, outbox) ←
      Projection.project link time session.table session.names session.outbox
    let session := { session with table, names, outbox }
    match projected with
    | .error error => return (.error error, session)
    | .ok summary =>
      let session ← session.recenter
      return (.ok (), { session with
        stats :=
          { time
            acksProcessed := acks.processed
            baselinesCommitted := acks.committed
            acksUnconfirmed := acks.unconfirmed
            statesEmitted := summary.emitted
            markedRemoved := summary.marked
            reaped := summary.reaped
            idsReleased } })

def endBlock (link : Link) (session : Session) : Noted (Except SendError Unit × Session) := do
  let (outcome, outbox) ← session.outbox.flush link
  return (outcome, { session with outbox })

inductive Call where
  | setSelf (entity : EntityId) (position : Vec3)
  | setSizeLimit (bytes : Nat)
  | post (ack : Ack)
  | beginFrame
  | stateChanged (block : StateBlock)
  | endFrame (time : Time)
  | endBlock
  deriving DecidableEq, Repr

/-- Performs an operation; only the last two can fail. -/
def run (link : Link) (session : Session) : Call → Noted (Except SendError Unit × Session)
  | .setSelf entity position => return (.ok (), session.setSelf entity position)
  | .setSizeLimit bytes => return (.ok (), session.setSizeLimit bytes)
  | .post ack => return (.ok (), session.post ack)
  | .beginFrame => return (.ok (), session.beginFrame)
  | .stateChanged block => do return (.ok (), ← session.stateChanged block)
  | .endFrame time => session.endFrame link time
  | .endBlock => session.endBlock link

/-- Performs operations in order, up to the first that fails. -/
def runAll (link : Link) : List Call → Session → Noted (Except SendError Unit × Session)
  | [], session => return (.ok (), session)
  | call :: rest, session => do
    let (outcome, session) ← session.run link call
    match outcome with
    | .error error => return (.error error, session)
    | .ok () => runAll link rest session

end Session

end AreaReplication
