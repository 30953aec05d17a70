import AreaReplication.Bits.Basic
import AreaReplication.Message.Basic
import AreaReplication.Replica.History
import AreaReplication.Replica.Snapshot

/-!
# What a connection notes

Operations note what they did as events, in order. A state that was put into a message and a message
that the transport accepted are events too; the others only matter to an operator.
-/
namespace AreaReplication

inductive Event where
  | idAssigned (id : NetId) (entity : EntityId)
  | idRetired (id : NetId) (entity : EntityId) (watermark : MessageId)
  | idsExhausted (entity : EntityId)
  /-- The estimate of the round trip, in nanoseconds, moved by more than its threshold. -/
  | pingMoved (estimate : Nat)
  | ackIgnored (id : MessageId)
  | versionLost (id : NetId) (version : Version) (acked : MessageId)
  | historyRefused (id : NetId) (error : HistoryError)
  | removalUndone (id : NetId)
  | leftView (entity : EntityId)
  | reaped (entity : EntityId) (id : NetId)
  | frameSplit (time : Time)
  /-- The message being filled took a state, written as `state`, of how `entity` looks. -/
  | queued (message : MessageId) (entity : EntityId) (shown : Snapshot) (state : Delta)
  | sent (message : Message) (packet : Packet)
  | expired (id : MessageId)
  | zoneOutOfView (zone : Zone) (time : Time)
  | staleUpdate (entity : EntityId) (time : Time)
  | centered (center : Option Zone) (entered exited : Nat)
  deriving DecidableEq, Repr

/-- A value together with the events on the way to it. -/
structure Noted (α : Type) where
  value : α
  events : List Event
  deriving DecidableEq, Repr

namespace Noted

instance : Monad Noted where
  pure value := ⟨value, []⟩
  bind first next :=
    let second := next first.value
    ⟨second.value, first.events ++ second.events⟩

@[simp] theorem value_pure {α : Type} (a : α) : (pure a : Noted α).value = a := rfl

@[simp] theorem events_pure {α : Type} (a : α) : (pure a : Noted α).events = [] := rfl

@[simp] theorem value_bind {α β : Type} (first : Noted α) (next : α → Noted β) :
    (first >>= next).value = (next first.value).value := rfl

@[simp] theorem events_bind {α β : Type} (first : Noted α) (next : α → Noted β) :
    (first >>= next).events = first.events ++ (next first.value).events := rfl

instance : LawfulMonad Noted :=
  LawfulMonad.mk' Noted
    (fun ⟨_, _⟩ => by simp [Functor.map])
    (fun _ _ => by simp [bind, pure])
    (fun _ _ _ => by simp [bind, List.append_assoc])

end Noted

def note (event : Event) : Noted Unit := ⟨(), [event]⟩

def noteIf (condition : Bool) (event : Event) : Noted Unit :=
  ⟨(), if condition then [event] else []⟩

def packetsSent (events : List Event) : List Packet :=
  events.filterMap fun
    | .sent _ packet => some packet
    | _ => none

def messagesSent (events : List Event) : List Message :=
  events.filterMap fun
    | .sent message _ => some message
    | _ => none

end AreaReplication
