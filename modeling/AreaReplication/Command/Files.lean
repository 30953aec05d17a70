import AreaReplication.Bits.Basic
import AreaReplication.Command.Path
import Std.Data.TreeMap

/-!
# Files

A tree of files and directories in which paths are looked up, made and written. Only what lies under
the root of the tree is known. A directory above it can be passed through; what has a name there is
not found by reading, and what is made or written there is not seen again.
-/
namespace AreaReplication.Command

inductive Found where
  | file (contents : Packet)
  | directory (files : List (String × Packet))
  | nothing (fault : PathFault)
  deriving DecidableEq, Repr

namespace Found

def contents : Found → Except PathFault Packet
  | file contents => .ok contents
  | directory _ => .error .isADirectory
  | nothing fault => .error fault

def isDirectory : Found → Bool
  | directory _ => true
  | _ => false

end Found

inductive Place where
  /-- Under the root of the tree, or the root itself. -/
  | inside (names : List String)
  /-- A directory above the root. -/
  | above
  /-- Something with a name outside of the tree. -/
  | unknown
  deriving DecidableEq, Repr

namespace Place

def parent : Place → Place
  | inside [] => above
  | inside names => inside names.dropLast
  | above => above
  | unknown => unknown

def child (name : String) : Place → Place
  | inside names => inside (names ++ [name])
  | _ => unknown

def start (path : String) : Place := if Path.isAbsolute path then above else inside []

end Place

structure FileTree where
  files : Std.TreeMap (List String) Packet := {}
  /-- Directories other than the root, each made before what lies in it. -/
  directories : List (List String) := []
  deriving Repr

namespace FileTree

def put (tree : FileTree) (names : List String) (contents : Packet) : FileTree :=
  { tree with files := tree.files.insert names contents }

def fileAt? (tree : FileTree) (names : List String) : Option Packet := tree.files[names]?

def isDirectory (tree : FileTree) (names : List String) : Bool :=
  names.isEmpty || tree.directories.contains names

def filesIn (tree : FileTree) (names : List String) : List (String × Packet) :=
  tree.files.toList.filterMap fun (place, contents) =>
    if place.dropLast = names then place.getLast?.map fun name => (name, contents) else none

def look (tree : FileTree) : Place → Found
  | .inside names =>
    match tree.fileAt? names with
    | some contents => .file contents
    | none =>
      if tree.isDirectory names then .directory (tree.filesIn names) else .nothing .missing
  | .above => .directory []
  | .unknown => .nothing .missing

def directoryFault? (tree : FileTree) : Place → Option PathFault
  | .inside names =>
    if tree.isDirectory names then none
    else if (tree.fileAt? names).isSome then some .notADirectory
    else some .missing
  | _ => none

def step (tree : FileTree) (place : Place) (name : String) : Except PathFault Place :=
  match tree.directoryFault? place with
  | some fault => .error fault
  | none =>
    if Path.staysHere name then .ok place
    else if name = ".." then .ok place.parent
    else if Path.maxNameBytes < name.utf8ByteSize then .error .tooLong
    else .ok (place.child name)

def follow (tree : FileTree) (path : String) (names : List String) : Except PathFault Place :=
  if Path.isTooLong path then
    .error .tooLong
  else
    names.foldlM tree.step (.start path)

def find (tree : FileTree) (path : String) : Found :=
  match tree.follow path (Path.names path) with
  | .ok place => tree.look place
  | .error fault => .nothing fault

/-- The place of an entry to be made or written. The path must end with a name of its own, or else
fails for the given reason. -/
def entryPlace (tree : FileTree) (path : String) (names : List String) (unnamed : PathFault) :
    Except PathFault Place := do
  let place ← tree.follow path names
  if place = .unknown then
    return place
  else if names.getLast?.all fun name => name = ".." || Path.staysHere name then
    throw unnamed
  else
    return place

def makeDirectory (tree : FileTree) (path : String) : Except PathFault FileTree := do
  match ← tree.entryPlace path (Path.entryNames path) .occupied with
  | .inside names =>
    if (tree.fileAt? names).isSome || tree.isDirectory names then
      throw .occupied
    else
      return { tree with directories := names :: tree.directories }
  | _ => return tree

def ensureDirectory (tree : FileTree) (path : String) : Except PathFault FileTree :=
  match tree.makeDirectory path with
  | .ok tree => .ok tree
  | .error fault => if (tree.find path).isDirectory then .ok tree else .error fault

/-- Makes a directory, and before it those that its path goes through, unless they are there. -/
def makeDirectories (tree : FileTree) (path : String) : Except PathFault FileTree :=
  match tree.ensureDirectory path with
  | .error .missing => (Path.through path).foldlM ensureDirectory tree
  | result => result

def write (tree : FileTree) (path : String) (contents : Packet) : Except PathFault FileTree := do
  match ← tree.entryPlace path (Path.names path) .isADirectory with
  | .inside names =>
    if tree.isDirectory names then throw .isADirectory else return tree.put names contents
  | _ => return tree

def writeThrough (tree : FileTree) (path : String) (contents : Packet) :
    Except PathFault FileTree := do
  let tree ← (Path.through path).dropLast.foldlM ensureDirectory tree
  tree.write path contents

/-- The tree of the given files, written in order; one that cannot be written is left out. -/
def ofList (files : List (String × Packet)) : FileTree :=
  files.foldl (fun tree (path, contents) =>
    match tree.writeThrough path contents with
    | .ok tree => tree
    | .error _ => tree) {}

end FileTree

end AreaReplication.Command
