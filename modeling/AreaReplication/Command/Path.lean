/-!
# Paths

A path is a text of names between separators. An empty name and `.` stay where they are, and `..`
goes back to the directory above.
-/
namespace AreaReplication.Command

inductive PathFault where
  | missing
  | notADirectory
  | isADirectory
  | occupied
  | tooLong
  | other (reason : String)
  deriving DecidableEq, Repr

def PathFault.message : PathFault → String
  | missing => "No such file or directory (os error 2)"
  | notADirectory => "Not a directory (os error 20)"
  | isADirectory => "Is a directory (os error 21)"
  | occupied => "File exists (os error 17)"
  | tooLong => "File name too long (os error 36)"
  | other reason => reason

namespace Path

def maxNameBytes : Nat := 255

def maxBytes : Nat := 4095

def isTooLong (path : String) : Bool := maxBytes < path.utf8ByteSize

/-- The names in a path, empty ones included. -/
def names (path : String) : List String :=
  go path.toList [] []
where
  go : List Char → (current : List Char) → (done : List String) → List String
    | [], current, done => (String.ofList current.reverse :: done).reverse
    | c :: rest, current, done =>
      if c = '/' then
        go rest [] (String.ofList current.reverse :: done)
      else
        go rest (c :: current) done

def staysHere (name : String) : Bool := name = "" || name = "."

def isAbsolute (path : String) : Bool := path.startsWith "/"

/-- The names in a path without the separators at its end. -/
def entryNames (path : String) : List String :=
  ((names path).reverse.dropWhile (· = "")).reverse

/-- The directories that a path goes through, the outermost first, and the path itself at the end.
What stays where it is adds no directory. -/
def through (path : String) : List String :=
  let steps := (names path).filter fun name => !staysHere name
  let root := if isAbsolute path then "/" else ""
  (List.range (steps.length - 1)).map (fun index =>
    root ++ "/".intercalate (steps.take (index + 1))) ++ [path]

def join (directory name : String) : String :=
  if directory.endsWith "/" then directory ++ name else directory ++ "/" ++ name

end Path

end AreaReplication.Command
