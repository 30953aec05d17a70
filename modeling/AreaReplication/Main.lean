import AreaReplication.Command.Inspection
import AreaReplication.Command.Simulation

/-!
# The program

The arguments are those of the inspection command, or `simulate` and those of the simulation
command. Only reading and writing files happens here; the commands say what to read and what to
write.
-/
namespace AreaReplication.Command

/-- An error number may come negated. -/
def isNumber (number code : UInt32) : Bool := code = number || code = 0 - number

def fault : IO.Error → PathFault
  | .noFileOrDirectory .. => .missing
  | .alreadyExists .. => .occupied
  | .inappropriateType _ code _ => if isNumber 21 code then .isADirectory else .notADirectory
  | .permissionDenied .. => .other "Permission denied (os error 13)"
  | error@(.invalidArgument _ code _) =>
    if isNumber 36 code then .tooLong else .other (toString error)
  | error => .other (toString error)

def lookUp (path : String) : IO Found := do
  let place := (← IO.currentDir) / path
  try
    if ← place.isDir then
      let mut files := []
      for entry in ← place.readDir do
        if (← entry.path.metadata).type == .file then
          let contents ← IO.FS.readBinFile entry.path
          files := (entry.fileName, contents.toList) :: files
      return .directory files
    else
      return .file (← IO.FS.readBinFile place).toList
  catch error =>
    return .nothing (fault error)

def ensureDirectory (path : String) : IO (Except PathFault Unit) := do
  let place := (← IO.currentDir) / path
  try
    IO.FS.createDir place
    return .ok ()
  catch error =>
    if ← place.isDir then return .ok () else return .error (fault error)

def makeDirectories (path : String) : IO (Except PathFault Unit) := do
  match ← ensureDirectory path with
  | .error .missing =>
    for step in Path.through path do
      if let .error fault ← ensureDirectory step then
        return .error fault
    return .ok ()
  | result => return result

def writeAll : List (String × Packet) → IO (Except Failure Unit)
  | [] => return .ok ()
  | (path, contents) :: rest => do
    try
      IO.FS.writeBinFile ((← IO.currentDir) / path) ⟨contents.toArray⟩
    catch error =>
      return .error (Simulation.writeFailure path (fault error))
    writeAll rest

def simulate (command : Simulation) : IO Output := do
  let contents ←
    match command.config with
    | some path => (·.contents) <$> lookUp path
    | none => pure (.error .missing)
  match command.readSettings contents with
  | .error failure => return .ofFailure failure
  | .ok settings =>
    match ← makeDirectories command.directory with
    | .error fault => return .ofFailure (command.directoryFailure fault)
    | .ok () =>
      let outcome := command.run settings
      match ← writeAll (command.written outcome) with
      | .error failure => return .ofFailure failure
      | .ok () => return Simulation.output outcome

def output : List String → IO Output
  | "simulate" :: args =>
    match Simulation.parse args with
    | .ok command => simulate command
    | .error stop => return Simulation.stopped stop
  | args =>
    match Inspection.parse args with
    | .ok command => return command.run (← lookUp command.path)
    | .error stop => return Inspection.stopped stop

end AreaReplication.Command

def main (args : List String) : IO UInt32 := do
  let output ← AreaReplication.Command.output args
  IO.print output.out
  IO.eprint output.err
  return output.code.toUInt32
