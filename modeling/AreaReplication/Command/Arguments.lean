/-!
# Command-line arguments

Options are written `--name value` or `--name=value`, at most once each; other arguments are
positional. Everything after `--` is positional. Arguments are taken in order, and the first that
is at fault, or that asks for help or the version, ends the reading.
-/
namespace AreaReplication.Command

/-- What a command takes: its options and positional arguments, each with a test for its value. -/
structure Interface where
  options : List (String × (String → Bool))
  positionals : List (String → Bool) := []
  hasVersion : Bool := false

inductive Stop where
  | usage
  | help
  | version
  deriving DecidableEq, Repr

structure Given where
  options : List (String × String) := []
  positionals : List String := []
  deriving DecidableEq, Repr

namespace Given

def option? (given : Given) (name : String) : Option String :=
  (given.options.find? fun entry => entry.1 = name).map (·.2)

def positional (given : Given) (index : Nat) : String := (given.positionals[index]?).getD ""

end Given

def isOptionLike (arg : String) : Bool := arg.startsWith "-" && arg ≠ "-"

def splitLong (arg : String) : String × Option String :=
  let body := arg.toList.drop 2
  let name := String.ofList (body.takeWhile (· ≠ '='))
  match body.dropWhile (· ≠ '=') with
  | _ :: value => (name, some (String.ofList value))
  | [] => (name, none)

namespace Interface

def takePositional (face : Interface) (given : Given) (value : String) : Except Stop Given :=
  match face.positionals[given.positionals.length]? with
  | some test =>
    if test value then
      .ok { given with positionals := given.positionals ++ [value] }
    else
      .error .usage
  | none => .error .usage

def takeOption (face : Interface) (given : Given) (name value : String) : Except Stop Given :=
  match face.options.find? fun entry => entry.1 = name with
  | some (_, test) =>
    if (given.option? name).isSome || !test value then
      .error .usage
    else
      .ok { given with options := given.options ++ [(name, value)] }
  | none => .error .usage

def hasOption (face : Interface) (name : String) : Bool :=
  face.options.any fun entry => entry.1 = name

def flagStop (face : Interface) (long : Bool) (name : String) : Stop :=
  if name = (if long then "help" else "h") then
    .help
  else if face.hasVersion && name = (if long then "version" else "V") then
    .version
  else
    .usage

def readPlain (face : Interface) : List String → Given → Except Stop Given
  | [], given => .ok given
  | arg :: rest, given =>
    match face.takePositional given arg with
    | .ok given => readPlain face rest given
    | .error stop => .error stop

def readArgs (face : Interface) : List String → Given → Except Stop Given
  | [], given => .ok given
  | arg :: rest, given =>
    if arg = "--" then
      readPlain face rest given
    else if arg.startsWith "--" then
      match splitLong arg with
      | (name, some value) =>
        match face.takeOption given name value with
        | .ok given => readArgs face rest given
        | .error stop => .error stop
      | (name, none) =>
        if face.hasOption name then
          match rest with
          | [] => .error .usage
          | value :: rest =>
            if isOptionLike value then
              .error .usage
            else
              match face.takeOption given name value with
              | .ok given => readArgs face rest given
              | .error stop => .error stop
        else
          .error (face.flagStop true name)
    else if isOptionLike arg then
      .error (face.flagStop false (String.ofList ((arg.toList.drop 1).take 1)))
    else
      match face.takePositional given arg with
      | .ok given => readArgs face rest given
      | .error stop => .error stop

/-- Reads the arguments of a command; every positional one must be there. -/
def parse (face : Interface) (args : List String) : Except Stop Given :=
  match face.readArgs args {} with
  | .ok given =>
    if given.positionals.length = face.positionals.length then .ok given else .error .usage
  | .error stop => .error stop

end Interface

def digitsValue (digits : List Char) : Option Nat :=
  if !digits.isEmpty && digits.all Char.isDigit then
    some (digits.foldl (fun value c => 10 * value + (c.toNat - '0'.toNat)) 0)
  else
    none

def parseInt (text : String) : Option Int :=
  match text.toList with
  | '-' :: digits => (digitsValue digits).map fun value => -(value : Int)
  | '+' :: digits => (digitsValue digits).map fun value => (value : Int)
  | digits => (digitsValue digits).map fun value => (value : Int)

/-- A whole number of at least zero; no minus sign may lead it. -/
def parseNat (text : String) : Option Nat :=
  match text.toList with
  | '+' :: digits => digitsValue digits
  | digits => digitsValue digits

def isNatBelow (bound : Nat) (text : String) : Bool := (parseNat text).any (· < bound)

def isIntWithin (low high : Int) (text : String) : Bool :=
  (parseInt text).any fun value => decide (low ≤ value ∧ value < high)

def isAnything (_ : String) : Bool := true

def isPath (text : String) : Bool := !text.isEmpty

end AreaReplication.Command
