import AreaReplication.Message.Basic

/-!
# The connection to the client

What an operation that may send meets on the outside: the stamp each message gets from the sender's
clock, and whether the transport takes it. A `Line` is a connection that is set by hand.
-/
namespace AreaReplication

inductive Refusal where
  | failed (reason : String)
  | disconnected
  deriving DecidableEq, Repr

def Refusal.message : Refusal → String
  | failed reason => reason
  | disconnected => "receiver disconnected"

structure Link where
  stamp : MessageId → Time
  refuses : MessageId → Option Refusal

/-- A connection with a clock that only moves when told to. -/
structure Line where
  clock : Time := 0
  failure : Option String := none
  disconnected : Bool := false
  deriving DecidableEq, Repr

namespace Line

def refusal (line : Line) : Option Refusal :=
  match line.failure with
  | some reason => some (.failed reason)
  | none => if line.disconnected then some .disconnected else none

def link (line : Line) : Link where
  stamp _ := line.clock
  refuses _ := line.refusal

/-- Moves the clock, which starts again from zero after its last value. -/
def advance (line : Line) (nanos : Time) : Line := { line with clock := line.clock + nanos }

end Line

end AreaReplication
