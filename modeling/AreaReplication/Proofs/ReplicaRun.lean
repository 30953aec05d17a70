import AreaReplication.Proofs.Play

/-!
# Runs of an object and of a table of objects

What can be done with an object and with the table that holds it, in any order and at any times.
The tables of a session come about in this way.
-/
namespace AreaReplication

namespace Replica

inductive Call where
  | update (time : Time) (zone : Zone) (zoneId : UInt32) (position : Vec3) (rotation : Quat)
  | removeFrom (time : Time) (zone : Zone)
  | remove (time : Time)
  | expire (time : Time)
  | advanceRemoval (time : Time)
  | emit (time : Time)
  | commit (version : Version)

def perform (replica : Replica) : Call → Replica
  | .update time zone zoneId position rotation =>
    (replica.update time zone zoneId position rotation).value.2
  | .removeFrom time zone => (replica.removeFrom time zone).2
  | .remove time => (replica.remove time).2
  | .expire time => (replica.expire time).2
  | .advanceRemoval time => replica.advanceRemoval time
  | .emit time => (replica.emit time).value.2
  | .commit version => (replica.commit version).2

def play (calls : List Call) (replica : Replica) : Replica := calls.foldl perform replica

variable {replica : Replica}

theorem remove_sound (time : Time) (h : Sound replica) : Sound (replica.remove time).2 := by
  rcases replica.remove_cases time with he | ⟨_, hv, he⟩
  · rw [he]
    exact h
  · rw [he]
    exact h.advance hv _ _

theorem perform_sound (call : Call) (h : Sound replica) : Sound (replica.perform call) := by
  cases call with
  | update => exact update_sound _ _ _ _ _ h
  | removeFrom => exact removeFrom_sound _ _ h
  | remove => exact remove_sound _ h
  | expire => exact expire_sound _ h
  | advanceRemoval => exact advanceRemoval_sound _ h
  | emit => exact emit_sound h
  | commit => exact commit_sound h _

/-- An object keeps its id and its entity. -/
theorem perform_names (replica : Replica) (call : Call) :
    (replica.perform call).netId = replica.netId ∧
      (replica.perform call).entity = replica.entity := by
  have of_follows : ∀ {after : Replica}, Follows replica after →
      after.netId = replica.netId ∧ after.entity = replica.entity :=
    fun follows => ⟨follows.netId, follows.entity⟩
  cases call with
  | update => exact of_follows (replica.update_follows _ _ _ _ _)
  | removeFrom => exact of_follows (replica.removeFrom_follows _ _)
  | remove time =>
    rcases replica.remove_cases time with he | ⟨_, _, he⟩ <;> simp only [perform, he, and_self]
  | expire => exact of_follows (replica.expire_follows _)
  | advanceRemoval => exact of_follows (replica.advanceRemoval_follows _)
  | emit => exact ⟨replica.emit_netId _, replica.emit_entity _⟩
  | commit version =>
    rcases replica.commit_cases version with ⟨_, _, _, hc⟩ | ⟨_, _, _, hc⟩ | hc <;>
      simp only [perform, hc, and_self]

theorem play_invariant {P : Replica → Prop}
    (step : ∀ {replica : Replica} (call : Call), P replica → P (replica.perform call))
    (calls : List Call) (h : P replica) : P (replica.play calls) := by
  induction calls generalizing replica with
  | nil => exact h
  | cons call rest ih => exact ih (step call h)

theorem play_sound (calls : List Call) (h : Sound replica) : Sound (replica.play calls) :=
  play_invariant perform_sound calls h

theorem play_names (calls : List Call) (replica : Replica) :
    (replica.play calls).netId = replica.netId ∧ (replica.play calls).entity = replica.entity := by
  induction calls generalizing replica with
  | nil => exact ⟨rfl, rfl⟩
  | cons call rest ih =>
    obtain ⟨netId, entity⟩ := replica.perform_names call
    obtain ⟨netIds, entities⟩ := ih (replica.perform call)
    exact ⟨netIds.trans netId, entities.trans entity⟩

end Replica

namespace ReplicaTable

/-- Tables that operations on objects lead to. An object is looked up or made, and then anything is
done with it. -/
inductive Reachable : ReplicaTable → Prop where
  | new (historyCapacity : Nat) : Reachable { historyCapacity }
  | perform {table : ReplicaTable} (reach : Reachable table) (id : NetId) (entity : EntityId)
      (calls : List Replica.Call) : Reachable (table.put ((table.getOrNew id entity).play calls))
  | erase {table : ReplicaTable} (reach : Reachable table) (id : NetId) :
      Reachable (table.erase id)
  | commit {table : ReplicaTable} (reach : Reachable table) (record : SentRecord) :
      Reachable (table.commit record).value.2

namespace Reachable

variable {table : ReplicaTable}

theorem sound (reach : Reachable table) : table.Keyed ∧ table.Sound := by
  induction reach with
  | new historyCapacity =>
    have empty := get?_empty historyCapacity
    exact ⟨fun id replica held => absurd held (empty id replica),
      fun id replica held => absurd held (empty id replica)⟩
  | perform _ id entity calls ih =>
    exact ⟨ih.1.put _, ih.2.put (Replica.play_sound calls (ih.2.getOrNew id entity))⟩
  | erase _ id ih => exact ⟨ih.1.erase id, ih.2.erase id⟩
  | commit _ record ih =>
    obtain ⟨keyed, sound, -⟩ := commitStates_keeps ih.1 ih.2
    exact ⟨keyed, sound⟩

theorem held (reach : Reachable table) {id : NetId} {replica : Replica}
    (held : table.get? id = some replica) (calls : List Replica.Call) :
    Reachable (table.put (replica.play calls)) := by
  have next := reach.perform id replica.entity calls
  rwa [getOrNew_of_some held] at next

end Reachable

end ReplicaTable

namespace Core

variable {core next : Core} {events : List Event} {link : Link} {now : Time}
  {acked : List MessageId}

theorem Input.reachable (step : Input now core events next) (reach : core.table.Reachable) :
    next.table.Reachable := by
  cases step with
  | remark => exact reach
  | @update entity id _ _ _ zone zoneId position rotation =>
    exact reach.perform id entity [.update now zone zoneId position rotation]
  | removal held zone => exact reach.held held [.removeFrom now zone]

theorem Output.reachable (step : Output link now acked core events next)
    (reach : core.table.Reachable) : next.table.Reachable := by
  cases step with
  | outbox | release => exact reach
  | @settle _ record => exact reach.commit record
  | present held => exact reach.held held [.expire now, .advanceRemoval now, .emit now]
  | queue held => exact reach.held held [.expire now, .advanceRemoval now, .emit now]
  | @reap replica => exact reach.erase replica.netId

end Core

/-- The objects of a session are what operations on them lead to. -/
theorem Session.play_reachable (grid : Grid) (settings : Settings)
    (calls : List (Link × Session.Call)) :
    (Session.play calls (.new grid settings)).value.table.Reachable := by
  have start : (Session.new grid settings).core.table.Reachable := .new settings.historyCapacity
  refine (@Session.play_keeps (fun _ core => core.table.Reachable) ?_ calls _ []
    (Session.new_tidy grid settings) start).2
  intro link call acked events core es next _ reach step
  cases call with
  | stateChanged => exact Core.Input.reachable step reach
  | endFrame => exact Core.Output.reachable step reach
  | _ =>
    obtain ⟨box, -, rfl⟩ := step
    exact reach

end AreaReplication
