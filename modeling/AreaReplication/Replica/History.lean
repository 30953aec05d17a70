import AreaReplication.Message.Basic

/-!
# Bounded histories

The latest values of something that changes over time, keyed by version. Versions ascend strictly;
when the history is full, a new entry pushes out the oldest.
-/
namespace AreaReplication

inductive HistoryError where
  | outOfOrder (last new : Version)
  deriving DecidableEq, Repr

def HistoryError.message : HistoryError → String
  | outOfOrder last new => s!"version {new.toNat} is not after {last.toNat}"

/-- The held entries, newest first. -/
structure History (α : Type) where
  entries : List (Version × α)
  capacity : Nat
  deriving DecidableEq, Repr

namespace History

variable {α : Type}

/-- An empty history; at least one entry is always held. -/
def ofCapacity (capacity : Nat) : History α where
  entries := []
  capacity := max capacity 1

def size (history : History α) : Nat := history.entries.length

def isEmpty (history : History α) : Bool := history.entries.isEmpty

def lastVersion (history : History α) : Option Version := history.entries.head?.map (·.1)

/-- The history once the entry at `version` has been added; a full one gives up its oldest. -/
def push (history : History α) (version : Version) (value : α) : History α :=
  let kept :=
    if history.size < history.capacity then history.entries
    else history.entries.take (history.capacity - 1)
  { history with entries := (version, value) :: kept }

def insert (history : History α) (version : Version) (value : α) :
    Except HistoryError (History α) :=
  match history.lastVersion with
  | some last =>
    if version ≤ last then .error (.outOfOrder last version) else .ok (history.push version value)
  | none => .ok (history.push version value)

def get? (history : History α) (version : Version) : Option α :=
  (history.entries.find? fun entry => entry.1 = version).map (·.2)

def dropThrough (history : History α) (version : Version) : History α :=
  { history with entries := history.entries.takeWhile fun entry => version < entry.1 }

def clear (history : History α) : History α := { history with entries := [] }

end History

end AreaReplication
