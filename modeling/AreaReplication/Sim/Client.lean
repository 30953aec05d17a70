import AreaReplication.Ascending
import AreaReplication.Message.Decode
import AreaReplication.Sim.Random
import Std.Data.ExtTreeMap

/-!
# A remote client

The far end of a lossy connection. It keeps, for each object, the versions that later states may
build on, forgets older ones once an acknowledgment is echoed, and answers every message it gets
with acknowledgments that are delayed, sometimes sent twice, and shuffled.
-/
namespace AreaReplication.Sim

structure View where
  position : Vec3 := .zero
  rotation : Quat := .identity
  zoneId : UInt32 := 0
  deriving DecidableEq, Repr

structure Conditions where
  lossPercent : Nat
  duplicatePercent : Nat
  ackDelay : Nat
  deriving DecidableEq, Repr

structure ClientReport where
  received : Nat := 0
  lost : Nat := 0
  acksPosted : Nat := 0
  /-- States that build on a version the client does not hold. -/
  misses : Nat := 0
  pruned : Nat := 0
  removals : Nat := 0
  deriving DecidableEq, Repr

def maxRemembered : Nat := 1024

structure Client where
  conditions : Conditions
  random : Random
  /-- The versions held of each object seen so far, ascending. -/
  views : Std.ExtTreeMap NetId (List (Version × View)) := {}
  carried : Std.ExtTreeMap MessageId (List (NetId × Version)) := {}
  tick : Nat := 0
  /-- Acknowledgments held back, under the tick at whose end they go out, the last one first. -/
  delayed : Std.ExtTreeMap Nat (List Packet) := {}
  report : ClientReport := {}
  deriving DecidableEq, Repr

namespace Client

def new (conditions : Conditions) (seed : UInt64) : Client :=
  { conditions, random := ⟨seed ^^^ 0x9e3779b97f4a7c15⟩ }

def held? (client : Client) (id : NetId) : Option (List (Version × View)) :=
  client.views[id]?

def setHeld (client : Client) (id : NetId) (versions : List (Version × View)) : Client :=
  { client with views := client.views.insert id versions }

def prune (client : Client) (id : NetId) (version : Version) : Client :=
  match client.held? id with
  | none => client
  | some versions =>
    let kept := versions.filter fun entry => version ≤ entry.1
    let client := client.setHeld id kept
    { client with report :=
        { client.report with pruned := client.report.pruned + (versions.length - kept.length) } }

/-- The server builds on nothing older than what the message `echoed` carried. -/
def release (client : Client) (echoed : MessageId) : Client :=
  match client.carried[echoed]? with
  | none => client
  | some states =>
    let client := { client with carried := client.carried.erase echoed }
    states.foldl (fun client state => client.prune state.1 state.2) client

def overlay (state : Delta) (base : View) : View where
  position := state.position.getD base.position
  rotation := state.rotation.getD base.rotation
  zoneId := state.zoneId.getD base.zoneId

def store (client : Client) (state : Delta) (versions : List (Version × View)) (view : View) :
    Client :=
  let client := client.setHeld state.netId
    (Ascending.insert (fun entry => entry.1) (state.version, view) versions)
  if state.removed then
    { client with report := { client.report with removals := client.report.removals + 1 } }
  else
    client

/-- Takes over a state. A complete one replaces all versions of the object; one that builds on a
version that is not held is missed. -/
def apply (client : Client) (state : Delta) : Client :=
  let versions := (client.held? state.netId).getD []
  match state.baseline with
  | none => client.store state [] (overlay state {})
  | some version =>
    match versions.find? fun entry => entry.1 = version with
    | some (_, base) => client.store state versions (overlay state base)
    | none =>
      let client := client.setHeld state.netId versions
      { client with report := { client.report with misses := client.report.misses + 1 } }

/-- Remembers what a message carried; above the limit the oldest message is given up. -/
def remember (client : Client) (message : Message) : Client :=
  let states := message.states.map fun state => (state.netId, state.version)
  let carried := client.carried.insert message.id states
  let oldest? := if maxRemembered < carried.size then carried.minKey? else none
  { client with carried := oldest?.elim carried carried.erase }

/-- Takes over a message: first its echoes, then its states, which are remembered. -/
def take (client : Client) (message : Message) : Client :=
  let client :=
    { client with report := { client.report with received := client.report.received + 1 } }
  let client := message.echoed.foldl release client
  let client := message.states.foldl apply client
  client.remember message

/-- The acknowledgments that go out at the end of a tick, the last one first. -/
def dueAt (client : Client) (tick : Nat) : List Packet := (client.delayed[tick]?).getD []

def hold (client : Client) (delay : Nat) (ack : Packet) : Client :=
  let due := client.tick + delay
  { client with delayed := client.delayed.insert due (ack :: client.dueAt due) }

def answer (client : Client) (message : Message) : Client :=
  let ack := Ack.encode message.id message.sentAt
  let (twice, random) := client.random.percent client.conditions.duplicatePercent
  let delay := client.conditions.ackDelay
  let client := { client with random }.hold delay ack
  if twice then client.hold (delay + 1) ack else client

def receive (client : Client) (message : Message) : Client :=
  (client.take message).answer message

def loses (client : Client) : Bool × Client :=
  let (lost, random) := client.random.percent client.conditions.lossPercent
  if lost then
    (true, { client with
      random, report := { client.report with lost := client.report.lost + 1 } })
  else
    (false, { client with random })

/-- Shuffles a list from its last place down: each place, counted from one, is exchanged with one
at or before it. -/
def shuffle {α : Type} : (place : Nat) → Array α → Random → Array α × Random
  | 0, items, random => (items, random)
  | place + 1, items, random =>
    if place = 0 then
      (items, random)
    else
      let (other, random) := random.below (place + 1)
      shuffle place (items.swapIfInBounds place other) random

/-- Ends a tick: the acknowledgments that have waited long enough go out, shuffled. -/
def endTick (client : Client) : List Packet × Client :=
  let ready := (client.dueAt client.tick).reverse
  let (shuffled, random) := shuffle ready.length ready.toArray client.random
  (shuffled.toList, { client with
    random
    tick := client.tick + 1
    delayed := client.delayed.erase client.tick
    report := { client.report with acksPosted := client.report.acksPosted + ready.length } })

end Client

end AreaReplication.Sim
