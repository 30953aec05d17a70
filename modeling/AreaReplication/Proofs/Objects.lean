import AreaReplication.Proofs.Ingestion

/-!
# Objects by their entities

An update makes or changes the object of one entity and a removal changes it; the objects of all
other entities stay as they are, under the ids that they have.
-/
namespace AreaReplication

namespace Names

variable {names : Names}

theorem Sound.distinct (h : names.Sound) {entity other : EntityId} {id : NetId}
    (one : names.idOf? entity = some id) (same : names.idOf? other = some id) : entity = other :=
  Option.some.inj (((h.inverse id entity).2 one).symm.trans ((h.inverse id other).2 same))

/-- An entity keeps the id that it has. -/
theorem assign_keeps (h : names.Sound) (owner : EntityId) {entity : EntityId} {id : NetId}
    (named : names.idOf? entity = some id) :
    (names.assign owner).value.2.idOf? entity = some id := by
  rcases names.assign_cases owner with ⟨_, _, ha⟩ | ⟨taken, rest, none, ht, ha⟩ | ha
  · rw [ha]
    exact named
  · have apart : owner ≠ entity := by
      rintro rfl
      rw [none] at named
      cases named
    rw [ha, (take?_fresh h ht).idOf?_bind, if_neg apart]
    exact named
  · rw [ha]
    exact named

end Names

namespace Session

def object? (session : Session) (entity : EntityId) : Option Replica :=
  (session.names.idOf? entity).bind session.table.get?

variable {session : Session} {entity : EntityId} {replica : Replica}

theorem object?_eq_some (tidy : session.core.Tidy) : session.object? entity = some replica ↔
    session.table.get? replica.netId = some replica ∧ replica.entity = entity := by
  constructor
  · intro found
    obtain ⟨id, named, held⟩ := Option.bind_eq_some_iff.1 found
    obtain rfl := tidy.keyed id replica held
    have owner := (tidy.names.inverse _ _).2 named
    exact ⟨held, Option.some.inj ((tidy.tracked _ replica held).symm.trans owner)⟩
  · rintro ⟨held, rfl⟩
    have named := (tidy.names.inverse _ _).1 (tidy.tracked _ replica held)
    exact Option.bind_eq_some_iff.2 ⟨_, named, held⟩

theorem object?_of_held (tidy : session.core.Tidy) {id : NetId}
    (held : session.table.get? id = some replica) :
    session.object? replica.entity = some replica := by
  obtain rfl := tidy.keyed id replica held
  exact (object?_eq_some tidy).2 ⟨held, rfl⟩

/-- A replica stored under another id than that of the entity. -/
theorem bind_put {named : Option NetId} {table : ReplicaTable}
    (apart : named ≠ some replica.netId) :
    named.bind (table.put replica).get? = named.bind table.get? := by
  cases named with
  | none => rfl
  | some id =>
    have other : replica.netId ≠ id := fun same => apart (congrArg some same.symm)
    rw [Option.bind_some, Option.bind_some, ReplicaTable.get?_put, if_neg other]

section Ingestion

variable (block : StateBlock) (zoneId : UInt32)

theorem applyUpdate_tidy (tidy : session.core.Tidy) (state : EntityState) :
    (session.applyUpdate block zoneId state).value.core.Tidy :=
  (session.applyUpdate_path block zoneId state).keeps (P := fun _ core => core.Tidy)
    (fun _ _ _ _ tidy step => step.tidy tidy) [] tidy

theorem updates_tidy (tidy : session.core.Tidy) (states : List EntityState) :
    (states.foldlM (applyUpdate block zoneId) session).value.core.Tidy := by
  induction states generalizing session with
  | nil => exact tidy
  | cons state rest ih => exact ih (applyUpdate_tidy block zoneId tidy state)

theorem applyRemoval_tidy (tidy : session.core.Tidy) (entity : EntityId) :
    (session.applyRemoval block entity).core.Tidy :=
  (session.applyRemoval_path block entity).keeps (P := fun _ core => core.Tidy)
    (fun _ _ _ _ tidy step => step.tidy tidy) [] tidy

theorem stateChanged_tidy (tidy : session.core.Tidy) :
    (session.stateChanged block).value.core.Tidy :=
  (session.stateChanged_path block).keeps (P := fun _ core => core.Tidy)
    (fun _ _ _ _ tidy step => step.tidy tidy) [] tidy

theorem applyUpdate_names (state : EntityState) :
    (session.applyUpdate block zoneId state).value.names =
      (session.names.assign state.entity).value.2 := by
  simp only [applyUpdate, Noted.value_bind]
  cases (session.names.assign state.entity).value.1 with
  | none => rfl
  | some id =>
    simp only [Noted.value_bind]
    split_ifs <;> rfl

/-- An update brings the object of its entity up to date, making one if it has none and gets an
id. -/
theorem applyUpdate_object? (tidy : session.core.Tidy) (state : EntityState) (entity : EntityId) :
    (session.applyUpdate block zoneId state).value.object? entity =
      if state.entity = entity then
        (session.names.assign entity).value.1.map fun id =>
          ((session.table.getOrNew id entity).update block.time block.zone zoneId state.position
            state.rotation).value.2
      else
        session.object? entity := by
  have names := @applyUpdate_names session block zoneId state
  have table := @applyUpdate_table session block zoneId state
  have netId : ∀ id, ((session.table.getOrNew id state.entity).update block.time block.zone zoneId
      state.position state.rotation).value.2.netId = id := fun id =>
    ((session.table.getOrNew id state.entity).update_follows _ _ _ _ _).netId.trans
      (tidy.keyed.getOrNew id state.entity)
  unfold object?
  rw [names, table]
  -- The entity has an id already, gets a fresh one or goes without.
  rcases session.names.assign_cases state.entity with ⟨id, named, ha⟩ | ⟨id, rest, -, ht, ha⟩ | ha
  · rw [ha, Option.elim_some]
    by_cases same : state.entity = entity
    · subst same
      rw [if_pos rfl, ha, named, Option.bind_some, ReplicaTable.get?_put, if_pos (netId id)]
      rfl
    · rw [if_neg same]
      refine bind_put fun other => ?_
      rw [netId] at other
      exact same (tidy.names.distinct named other)
  · have fresh : session.names.Fresh id rest := Names.take?_fresh tidy.names ht
    rw [ha, Option.elim_some, fresh.idOf?_bind]
    by_cases same : state.entity = entity
    · subst same
      rw [if_pos rfl, if_pos rfl, ha, Option.bind_some, ReplicaTable.get?_put, if_pos (netId id)]
      rfl
    · rw [if_neg same, if_neg same]
      refine bind_put fun other => ?_
      rw [netId] at other
      have used : session.names.entityOf? id = some entity := (tidy.names.inverse _ _).2 other
      rw [fresh.unused] at used
      cases used
  · rw [ha, Option.elim_none]
    by_cases same : state.entity = entity
    · subst same
      rw [if_pos rfl, ha]
      cases named : session.names.idOf? state.entity with
      | none => rfl
      | some id =>
        rw [Names.assign, named] at ha
        cases congrArg (fun answer => answer.value.1) ha
    · rw [if_neg same]

/-- A removal is put to the object of its entity. -/
theorem applyRemoval_object? (tidy : session.core.Tidy) (removed entity : EntityId) :
    (session.applyRemoval block removed).object? entity =
      if removed = entity then
        (session.object? entity).map fun replica => (replica.removeFrom block.time block.zone).2
      else
        session.object? entity := by
  unfold object? applyRemoval
  cases named : session.names.idOf? removed with
  | none =>
    split_ifs with same
    · rw [← same, named]
      rfl
    · rfl
  | some id =>
    cases held : session.table.get? id with
    | none =>
      simp only [held]
      split_ifs with same
      · rw [← same, named, Option.bind_some, held]
        rfl
      · rfl
    | some replica =>
      have netId := (replica.removeFrom_follows block.time block.zone).netId.trans
        (tidy.keyed id replica held)
      simp only [held]
      split_ifs with same
      · rw [← same, named, Option.bind_some, Option.bind_some, ReplicaTable.get?_put, if_pos netId,
          held]
        rfl
      · refine bind_put fun other => ?_
        rw [netId] at other
        exact same (tidy.names.distinct named other)

/-- Removals are put to an object one after the other. -/
theorem removals_object? (tidy : session.core.Tidy) (entities : List EntityId) (entity : EntityId) :
    (entities.foldl (applyRemoval block) session).object? entity =
      (session.object? entity).map (Replica.play
        ((entities.filter fun other => other = entity).map fun _ =>
          .removeFrom block.time block.zone)) := by
  induction entities generalizing session with
  | nil => exact Option.map_id'.symm
  | cons first rest ih =>
    rw [List.foldl_cons, ih (applyRemoval_tidy block tidy first), applyRemoval_object? block tidy]
    by_cases same : first = entity
    · rw [if_pos same, List.filter_cons_of_pos (by simpa using same), Option.map_map]
      rfl
    · rw [if_neg same, List.filter_cons_of_neg (by simpa using same)]

end Ingestion

end Session

end AreaReplication
