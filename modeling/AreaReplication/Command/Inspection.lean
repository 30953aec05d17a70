import AreaReplication.Command.Arguments
import AreaReplication.Command.Files
import AreaReplication.Command.Glob
import AreaReplication.Command.Report
import AreaReplication.Inspect.MessageJson
import AreaReplication.Inspect.Report

/-!
# The inspection command

`inspect` breaks down a message file or the files of a directory; `decode` writes one message as
JSON or as an outline. The arguments name one path, and what is found there decides the output.
-/
namespace AreaReplication.Command

inductive DecodeFormat where
  | json
  | outline
  deriving DecidableEq, Repr

inductive Inspection where
  | inspect (path : String) (glob : Option String) (bySize : Bool) (limit : Option Nat)
  | decode (path : String) (format : DecodeFormat)
  deriving DecidableEq, Repr

namespace Inspection

def inspectInterface : Interface where
  options := [("glob", isAnything), ("sort", (· = "size")), ("limit", isNatBelow UInt64.size)]
  positionals := [isPath]

def decodeInterface : Interface where
  options := [("format", fun text => text = "json" || text = "pretty")]
  positionals := [isPath]

def parse : List String → Except Stop Inspection
  | [] => .error .usage
  | "inspect" :: args => do
    let given ← inspectInterface.parse args
    return .inspect (given.positional 0) (given.option? "glob") (given.option? "sort").isSome
      ((given.option? "limit").bind parseNat)
  | "decode" :: args => do
    let given ← decodeInterface.parse args
    return .decode (given.positional 0)
      (if given.option? "format" = some "pretty" then .outline else .json)
  | "help" :: [] => .error .help
  | "help" :: [command] =>
    .error (if ["inspect", "decode", "help"].contains command then .help else .usage)
  | "help" :: _ => .error .usage
  | arg :: args =>
    match ({ options := [], hasVersion := true } : Interface).parse (arg :: args) with
    | .ok _ => .error .usage
    | .error stop => .error stop

def path : Inspection → String
  | inspect path _ _ _ => path
  | decode path _ => path

def decodeFailure (error : DecodeError) : Failure where
  message := error.message
  causes := error.cause?.toList.map BitError.message

def inspectFile (path : String) (contents : Except PathFault Packet) : Except Failure String :=
  match contents with
  | .error fault => .error { message := s!"read message {path}", causes := [fault.message] }
  | .ok packet =>
    match InspectReport.ofPacket {} packet with
    | .ok report => .ok report.text
    | .error error => .error ((decodeFailure error).within s!"decode message {path}")

structure Entry where
  name : String
  path : String
  contents : Packet
  deriving DecidableEq, Repr

def Entry.byName (a b : Entry) : Bool := decide (a.name ≤ b.name)

def Entry.bySize (a b : Entry) : Bool :=
  decide (b.contents.length < a.contents.length) ||
    (a.contents.length == b.contents.length && a.byName b)

/-- The files to break down, in order; one with too long a path is not found. Without a limit,
sorting keeps the first ten. -/
def entries (directory : String) (pattern : Option Glob.Pattern) (bySize : Bool)
    (limit : Option Nat) (files : List (String × Packet)) : List Entry :=
  let all := files.map fun (name, contents) => { name, path := Path.join directory name, contents }
  let found := all.filter fun (entry : Entry) => !Path.isTooLong entry.path
  let kept := found.filter fun (entry : Entry) =>
    pattern.all fun pattern => pattern.matches entry.path || pattern.matches entry.name
  let sorted := kept.mergeSort (if bySize then Entry.bySize else Entry.byName)
  match limit with
  | some limit => sorted.take limit
  | none => if bySize then sorted.take 10 else sorted

def inspectEntries : List Entry → Output
  | [] => {}
  | entry :: rest =>
    let title := s!"== {entry.path} ({entry.contents.length} bytes) ==\n"
    match inspectFile entry.path (.ok entry.contents) with
    | .ok text => (inspectEntries rest).prepend (title ++ text)
    | .error failure => (Output.ofFailure failure).prepend title

def run (command : Inspection) (found : Found) : Output :=
  match command with
  | inspect path glob bySize limit =>
    match found with
    | .directory files =>
      match glob.mapM Glob.Pattern.ofText with
      | .ok pattern => inspectEntries (entries path pattern bySize limit files)
      | .error error =>
        .ofFailure { message := "invalid glob pattern", causes := [error.message] }
    | found =>
      match inspectFile path found.contents with
      | .ok text => { out := text }
      | .error failure => .ofFailure failure
  | decode path format =>
    match found.contents with
    | .error fault =>
      .ofFailure { message := s!"read message {path}", causes := [fault.message] }
    | .ok packet =>
      match packetJson {} packet with
      | .error error => .ofFailure (decodeFailure error)
      | .ok json =>
        match format with
        | .json => { out := json.indented 0 ++ "\n" }
        | .outline => { out := outline json }

def versionLine : String := "zonecast-tools 0.3.0\n"

def stopped : Stop → Output
  | .usage => .usage
  | .help => {}
  | .version => { out := versionLine }

def runIn (tree : FileTree) (args : List String) : Output :=
  match parse args with
  | .ok command => command.run (tree.find command.path)
  | .error stop => stopped stop

end Inspection

end AreaReplication.Command
