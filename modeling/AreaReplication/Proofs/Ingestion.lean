import AreaReplication.Proofs.ReplicaRun

/-!
# What a block does to one object

A block updates and removes many entities, and an object is touched only by what the block says of
its own entity: first the updates, then the removals.
-/
namespace AreaReplication

/-- What a block does to the object of `entity`. -/
def StateBlock.callsFor (block : StateBlock) (zoneId : UInt32) (entity : EntityId) :
    List Replica.Call :=
  (block.updates.filter fun state => state.entity = entity).map (fun state =>
      .update block.time block.zone zoneId state.position state.rotation) ++
    (block.removals.filter fun other => other = entity).map fun _ =>
      .removeFrom block.time block.zone

namespace Session

open AreaReplication.Core

variable {session : Session} {id : NetId} {replica : Replica} (block : StateBlock)
  (zoneId : UInt32)

theorem applyUpdate_table (state : EntityState) :
    (session.applyUpdate block zoneId state).value.table =
      ((session.names.assign state.entity).value.1.elim session.table fun id =>
        session.table.put ((session.table.getOrNew id state.entity).update block.time block.zone
          zoneId state.position state.rotation).value.2) := by
  simp only [applyUpdate, Noted.value_bind]
  cases (session.names.assign state.entity).value.1 with
  | none => rfl
  | some id =>
    simp only [Noted.value_bind]
    split_ifs <;> rfl

theorem applyUpdate_get? (tidy : session.core.Tidy) (held : session.table.get? id = some replica)
    (state : EntityState) : (session.applyUpdate block zoneId state).value.table.get? id =
      some (if state.entity = replica.entity then
        (replica.update block.time block.zone zoneId state.position state.rotation).value.2
      else replica) := by
  have named : session.names.idOf? replica.entity = some id :=
    (tidy.names.inverse id replica.entity).1 (tidy.tracked id replica held)
  rw [applyUpdate_table]
  split_ifs with same
  · have known : (session.names.assign state.entity).value.1 = some id := by
      rw [same, Names.assign, named]
      rfl
    have netId := (replica.update_follows block.time block.zone zoneId state.position
      state.rotation).netId.trans (tidy.keyed id replica held)
    rw [known, Option.elim_some, ReplicaTable.getOrNew_of_some held, ReplicaTable.get?_put,
      if_pos netId]
  · cases assigned : session.names.assign state.entity with
    | mk answer events =>
      obtain ⟨answer, names⟩ := answer
      cases answer with
      | none => exact held
      | some other =>
        -- An id that another entity gets is not the id of this object.
        have apart : other ≠ id := by
          rintro rfl
          have found : session.core.table.getOrNew other state.entity = replica :=
            ReplicaTable.getOrNew_of_some held state.entity
          have owner := tidy.getOrNew_entity assigned
          rw [found] at owner
          exact same owner.symm
        have netId := ((session.table.getOrNew other state.entity).update_follows block.time
          block.zone zoneId state.position state.rotation).netId.trans
          (tidy.keyed.getOrNew other state.entity)
        rw [Option.elim_some, ReplicaTable.get?_put, netId, if_neg apart, held]

theorem updates_get? (tidy : session.core.Tidy) (held : session.table.get? id = some replica)
    (states : List EntityState) :
    let after := (states.foldlM (applyUpdate block zoneId) session).value
    after.core.Tidy ∧ after.table.get? id = some (replica.play
      ((states.filter fun state => state.entity = replica.entity).map fun state =>
        .update block.time block.zone zoneId state.position state.rotation)) := by
  induction states generalizing session replica with
  | nil => exact ⟨tidy, held⟩
  | cons state rest ih =>
    have tidy' : (session.applyUpdate block zoneId state).value.core.Tidy :=
      (session.applyUpdate_path block zoneId state).keeps (P := fun _ core => core.Tidy)
        (fun _ _ _ _ tidy step => step.tidy tidy) [] tidy
    have first := applyUpdate_get? block zoneId tidy held state
    have entity := (replica.update_follows block.time block.zone zoneId state.position
      state.rotation).entity
    simp only [List.foldlM_cons, Noted.value_bind]
    obtain ⟨tidied, rested⟩ := ih tidy' first
    refine ⟨tidied, rested.trans ?_⟩
    rw [List.filter_cons]
    split_ifs with same <;> simp_all [Replica.play, Replica.perform]

theorem applyRemoval_get? (tidy : session.core.Tidy) (held : session.table.get? id = some replica)
    (entity : EntityId) : (session.applyRemoval block entity).table.get? id =
      some (if entity = replica.entity then (replica.removeFrom block.time block.zone).2
        else replica) := by
  have named : session.names.idOf? replica.entity = some id :=
    (tidy.names.inverse id replica.entity).1 (tidy.tracked id replica held)
  unfold applyRemoval
  split_ifs with same
  · have netId := (replica.removeFrom_follows block.time block.zone).netId.trans
      (tidy.keyed id replica held)
    rw [same, named]
    simp only [held]
    rw [ReplicaTable.get?_put, if_pos netId]
  · cases found : session.names.idOf? entity with
    | none => exact held
    | some other =>
      have apart : other ≠ id := by
        rintro rfl
        have owner := (tidy.names.inverse other entity).2 found
        exact same (Option.some.inj (owner.symm.trans (tidy.tracked other replica held)))
      cases stored : session.table.get? other with
      | none =>
        simp only [stored]
        exact held
      | some removed =>
        have netId := (removed.removeFrom_follows block.time block.zone).netId.trans
          (tidy.keyed other removed stored)
        simp only [stored]
        rw [ReplicaTable.get?_put, netId, if_neg apart, held]

theorem removals_get? (tidy : session.core.Tidy) (held : session.table.get? id = some replica)
    (entities : List EntityId) :
    (entities.foldl (applyRemoval block) session).table.get? id = some (replica.play
      ((entities.filter fun other => other = replica.entity).map fun _ =>
        .removeFrom block.time block.zone)) := by
  induction entities generalizing session replica with
  | nil => exact held
  | cons entity rest ih =>
    have tidy' : (session.applyRemoval block entity).core.Tidy :=
      (session.applyRemoval_path block entity).keeps (P := fun _ core => core.Tidy)
        (fun _ _ _ _ tidy step => step.tidy tidy) [] tidy
    have first := applyRemoval_get? block tidy held entity
    have owner := (replica.removeFrom_follows block.time block.zone).entity
    refine (ih tidy' first).trans ?_
    rw [List.filter_cons]
    split_ifs with same <;> simp_all [Replica.play, Replica.perform]

/-- A block does to an object what it says of the object's entity. -/
theorem stateChanged_get? (tidy : session.core.Tidy)
    (held : session.table.get? id = some replica) :
    (session.stateChanged block).value.table.get? id = some (replica.play
      (block.callsFor (session.blockZoneId block) replica.entity)) := by
  obtain ⟨tidied, updated⟩ :=
    updates_get? block (session.blockZoneId block) tidy held block.updates
  have removed := removals_get? block tidied updated block.removals
  rw [(replica.play_names _).2] at removed
  simp only [stateChanged, Noted.value_bind, Noted.value_pure]
  rw [removed, StateBlock.callsFor, Replica.play, Replica.play, Replica.play, List.foldl_append]

end Session

end AreaReplication
