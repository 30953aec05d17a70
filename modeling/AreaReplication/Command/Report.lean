/-!
# What a command leaves behind
-/
namespace AreaReplication.Command

structure Failure where
  message : String
  causes : List String := []
  deriving DecidableEq, Repr

namespace Failure

def within (failure : Failure) (message : String) : Failure :=
  { message, causes := failure.message :: failure.causes }

def firstLine (failure : Failure) : String := "Error: " ++ failure.message

def causeLines : List String → String
  | [] => ""
  | [cause] => "\nCaused by:\n    " ++ cause ++ "\n"
  | causes =>
    "\nCaused by:\n" ++
      String.join (causes.zipIdx.map fun (cause, index) => s!"    {index}: {cause}\n")

def text (failure : Failure) : String :=
  failure.firstLine ++ "\n" ++ causeLines failure.causes

end Failure

structure Output where
  code : Nat := 0
  out : String := ""
  err : String := ""
  deriving DecidableEq, Repr

namespace Output

def prepend (text : String) (output : Output) : Output := { output with out := text ++ output.out }

def ofFailure (failure : Failure) : Output := { code := 1, err := failure.text }

def usage : Output := { code := 2 }

end Output

end AreaReplication.Command
