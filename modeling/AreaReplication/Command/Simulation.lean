import AreaReplication.Command.Arguments
import AreaReplication.Command.Files
import AreaReplication.Command.Report
import AreaReplication.Decimal.Reading
import AreaReplication.Sim.Run

/-!
# The simulation command

Runs a scenario that the arguments describe and leaves the messages that reached the client as files
in a directory, with a summary of the run if it went well. Settings come from a file first and from
the arguments second.
-/
namespace AreaReplication.Command

structure Simulation where
  scenario : Sim.Scenario
  config : Option String
  radius : Option Nat
  maxMessageSize : Option Nat
  directory : String
  deriving DecidableEq, Repr

namespace Simulation

/-- A number of 32 bits may be written with either sign. -/
def isNat32 : String → Bool := isIntWithin 0 UInt32.size

def isNat64 : String → Bool := isNatBelow UInt64.size

def interface : Interface where
  options :=
    [("entities", isNat32), ("ticks", isNat32), ("seed", isNat64),
      ("zone-size", fun text => (Decimal.parseDouble text).isSome),
      ("world-zones", isIntWithin Zone.minCoordinate (Zone.maxCoordinate + 1)),
      ("ticks-per-block", isNat32), ("tick-ms", isNat64), ("loss-percent", isNat32),
      ("duplicate-percent", isNat32),
      ("ack-delay-ticks", isNat32), ("churn-percent", isNat32), ("config", isPath),
      ("radius", isNat32), ("max-message-size", isNat64), ("out-dir", isPath),
      ("max-p95-bytes", isNat64)]
  hasVersion := true

def parse (args : List String) : Except Stop Simulation := do
  let given ← interface.parse args
  let int? (name : String) : Option Int := (given.option? name).bind parseInt
  let nat? (name : String) : Option Nat := (int? name).map Int.toNat
  let nat (name : String) (default : Nat) : Nat := (nat? name).getD default
  let base : Sim.Scenario := {}
  return {
    scenario :=
      { entities := nat "entities" base.entities
        ticks := nat "ticks" base.ticks
        seed := UInt64.ofNat (nat "seed" base.seed.toNat)
        zoneSize := ((given.option? "zone-size").bind Decimal.parseDouble).getD base.zoneSize
        worldZones := (int? "world-zones").getD base.worldZones
        ticksPerBlock := nat "ticks-per-block" base.ticksPerBlock
        tickMs := nat "tick-ms" base.tickMs
        conditions :=
          { lossPercent := nat "loss-percent" base.conditions.lossPercent
            duplicatePercent := nat "duplicate-percent" base.conditions.duplicatePercent
            ackDelay := nat "ack-delay-ticks" base.conditions.ackDelay }
        churnPercent := nat "churn-percent" base.churnPercent
        maxP95Bytes := nat? "max-p95-bytes" }
    config := given.option? "config"
    radius := nat? "radius"
    maxMessageSize := nat? "max-message-size"
    directory := (given.option? "out-dir").getD "captures" }

def readSettings (command : Simulation) (contents : Except PathFault Packet) :
    Except Failure Settings :=
  match command.config with
  | none => .ok {}
  | some path =>
    match contents with
    | .error fault => .error { message := s!"read config {path}", causes := [fault.message] }
    | .ok packet =>
      match String.fromUTF8? ⟨packet.toArray⟩ with
      | none =>
        .error { message := s!"read config {path}",
                 causes := ["stream did not contain valid UTF-8"] }
      | some text =>
        match Settings.ofText? text with
        | some settings => .ok settings
        | none => .error { message := "parse config json" }

def override (command : Simulation) (settings : Settings) : Settings :=
  { settings with
    zoneRadius := command.radius.getD settings.zoneRadius
    maxMessageSize := command.maxMessageSize.getD settings.maxMessageSize }

def run (command : Simulation) (settings : Settings) : Sim.Outcome :=
  Sim.run { command.scenario with settings := command.override settings }

def captureName (capture : Sim.Capture) : String :=
  let digits := (toString capture.message.id.toNat).toList
  "message_" ++ String.ofList (List.replicate (6 - digits.length) '0' ++ digits) ++ ".bin"

/-- The files that a run leaves, in order: a capture for each message that reached the client, and
the summary of a run that went well. -/
def written (command : Simulation) (outcome : Sim.Outcome) : List (String × Packet) :=
  let captures := outcome.captures.map fun capture =>
    (Path.join command.directory (captureName capture), capture.packet)
  match outcome.summary with
  | .ok summary =>
    captures ++ [(Path.join command.directory "summary.json",
      (summary.toJson.indented 0).toUTF8.toList)]
  | .error _ => captures

def output (outcome : Sim.Outcome) : Output :=
  match outcome.summary with
  | .ok _ => {}
  | .error failure => .ofFailure failure

def directoryFailure (command : Simulation) (fault : PathFault) : Failure where
  message := s!"create output dir {command.directory}"
  causes := [fault.message]

def writeFailure (path : String) (fault : PathFault) : Failure where
  message := s!"write {path}"
  causes := [fault.message]

def writeAll : List (String × Packet) → FileTree → Except Failure Unit × FileTree
  | [], tree => (.ok (), tree)
  | (path, contents) :: rest, tree =>
    match tree.write path contents with
    | .ok tree => writeAll rest tree
    | .error fault => (.error (writeFailure path fault), tree)

def versionLine : String := "demo-sim 0.3.0\n"

def stopped : Stop → Output
  | .usage => .usage
  | .help => {}
  | .version => { out := versionLine }

/-- Runs the scenario in a tree of files: the settings are read, then the directory is made, then
the files are written. A message that cannot be written ends the run, so that its failure comes
before one of a later message. -/
def runWithin (tree : FileTree) (command : Simulation) : Output × FileTree :=
  match command.readSettings (tree.find (command.config.getD "")).contents with
  | .error failure => (.ofFailure failure, tree)
  | .ok settings =>
    match tree.makeDirectories command.directory with
    | .error fault => (.ofFailure (command.directoryFailure fault), tree)
    | .ok tree =>
      let outcome := command.run settings
      match writeAll (command.written outcome) tree with
      | (.ok (), tree) => (output outcome, tree)
      | (.error failure, tree) => (.ofFailure failure, tree)

def runIn (tree : FileTree) (args : List String) : Output × FileTree :=
  match parse args with
  | .ok command => runWithin tree command
  | .error stop => (stopped stop, tree)

end Simulation

end AreaReplication.Command
