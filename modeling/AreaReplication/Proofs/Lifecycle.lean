import AreaReplication.Proofs.Timely

/-!
# From the last update of an object to its end

At a pace, and as long as nothing fails, the end of a tick shows every object once. An object that
the tick has not updated is marked removed, and its removal is sent with the time of that tick. The
end of the next tick sends it once more and drops the object, unless the entity was updated again:
then the object starts over and is sent in full.
-/
namespace AreaReplication

namespace ReplicaTable

def Timely (pace : Pace) (table : ReplicaTable) : Prop :=
  ∀ id replica, table.get? id = some replica → replica.Timely pace

variable {pace : Pace} {table : ReplicaTable} {time : Time}

theorem Timely.put (h : table.Timely pace) {replica : Replica} (timely : replica.Timely pace) :
    (table.put replica).Timely pace := by
  intro id other held
  rcases get?_put_some held with ⟨-, rfl⟩ | ⟨-, held⟩
  · exact timely
  · exact h id other held

theorem Timely.getOrNew (h : table.Timely pace) (begun : pace.tick = some time) (id : NetId)
    (entity : EntityId) : (table.getOrNew id entity).Timely pace := by
  cases held : table.get? id with
  | none =>
    rw [getOrNew_of_none held]
    exact Replica.new_timely begun _ _ _
  | some replica =>
    rw [getOrNew_of_some held]
    exact h id replica held

end ReplicaTable

theorem Core.Input.timely {pace : Pace} {time : Time} {core next : Core} {events : List Event}
    (step : Input time core events next) (begun : pace.tick = some time)
    (h : core.table.Timely pace) : next.table.Timely pace := by
  cases step with
  | remark => exact h
  | @update entity id _ _ _ zone zoneId position rotation =>
    exact h.put ((h.getOrNew begun id entity).update begun zone zoneId position rotation)
  | @removal id replica held zone => exact h.put ((h id replica held).removeFrom begun zone)

namespace Session

open AreaReplication.Core

namespace Turn

variable {turn : Turn} {pace : Pace} {time : Time} {id : NetId} {replica : Replica}
  {entity : EntityId}

def states (turn : Turn) : List Delta := statesQueued turn.events

/-- A state that shows the object under `id` removed was sent. -/
def showsRemoved (turn : Turn) (id : NetId) : Bool :=
  turn.states.any fun state => state.netId = id && state.removed

def refreshes (turn : Turn) (entity : EntityId) : Bool :=
  match turn.call with
  | .stateChanged block => block.refreshes entity
  | _ => false

def endsTick (turn : Turn) : Bool :=
  match turn.call with
  | .endFrame _ => true
  | _ => false

/-- What the end of the tick does to an object as the acknowledgments leave it. -/
structure Shows (turn : Turn) (time : Time) (id : NetId) (replica : Replica) : Prop where
  netId : replica.netId = id
  state : (replica.shownAt time).delta ∈ turn.states
  table : turn.after.table.get? id =
    if (replica.emittedAt time).removal = .complete then none else some (replica.emittedAt time)
  quarantined : (replica.emittedAt time).removal = .complete → turn.after.names.Quarantined id

theorem projected (tidy : turn.before.core.Tidy) (ended : turn.call = .endFrame time)
    (ok : turn.outcome = .ok ()) : Projected turn.link turn.before time := by
  obtain ⟨link, before, call⟩ := turn
  subst ended
  exact endFrame_projected tidy ok

theorem states_eq (ended : turn.call = .endFrame time) :
    turn.states = statesQueued (turn.before.endFrame turn.link time).events := by
  rw [states, events, ended]
  rfl

theorem after_eq (ended : turn.call = .endFrame time) :
    turn.after = (turn.before.endFrame turn.link time).value.2 := by
  rw [after, ended]
  rfl

theorem shows (tidy : turn.before.core.Tidy) (ended : turn.call = .endFrame time)
    (ok : turn.outcome = .ok ()) (held : turn.before.table.get? id = some replica) :
    turn.Shows time id (replica.confirm (turn.before.confirmed id)) := by
  have projected := turn.projected tidy ended ok
  have acked : turn.before.acked.table.get? id =
      some (replica.confirm (turn.before.confirmed id)) := by
    rw [acked_get? tidy, held, Option.map_some]
  have netId := acked_keyed tidy id _ acked
  refine ⟨netId, ?_, ?_, ?_⟩
  · have listed :
        replica.confirm (turn.before.confirmed id) ∈ turn.before.acked.table.toList := by
      rw [ReplicaTable.mem_toList (acked_keyed tidy), netId]
      exact acked
    rw [states_eq ended, projected.states]
    exact List.mem_map_of_mem listed
  · rw [after_eq ended, projected.table, acked]
    rfl
  · rw [after_eq ended]
    exact projected.quarantined id _ acked

/-- What is left in the table is what the tick has shown. -/
theorem left_shown (tidy : turn.before.core.Tidy) (ended : turn.call = .endFrame time)
    (ok : turn.outcome = .ok ()) (left : turn.after.table.get? id = some replica) :
    ∃ old, turn.before.table.get? id = some old ∧
      replica = (old.confirm (turn.before.confirmed id)).emittedAt time ∧
      replica.removal ≠ .complete := by
  rw [after_eq ended, (turn.projected tidy ended ok).table] at left
  obtain ⟨shown, acked, left⟩ := Option.bind_eq_some_iff.1 left
  obtain ⟨old, held, rfl⟩ := acked_some tidy acked
  split_ifs at left with gone
  obtain rfl := Option.some.inj left
  exact ⟨old, held, rfl, gone⟩

theorem netIds (tidy : turn.before.core.Tidy) (ended : turn.call = .endFrame time)
    (ok : turn.outcome = .ok ()) :
    turn.states.map Delta.netId = turn.before.table.replicas.keys := by
  rw [states_eq ended, (turn.projected tidy ended ok).states, List.map_map, ← acked_keys tidy,
    ← ReplicaTable.toList_netIds (acked_keyed tidy)]
  exact List.map_congr_left fun replica _ => replica.shownAt_delta_netId time

/-- Only a block and the end of a tick change the objects and the pace. -/
theorem quiet_or (turn : Turn) : (∃ block, turn.call = .stateChanged block) ∨
    (∃ time, turn.call = .endFrame time) ∨ (turn.after.table = turn.before.table ∧
      (∀ pace : Pace, pace.after turn.call = pace) ∧ ∀ entity, turn.refreshes entity = false) := by
  obtain ⟨link, before, call⟩ := turn
  cases call with
  | stateChanged block => exact .inl ⟨block, rfl⟩
  | endFrame time => exact .inr (.inl ⟨time, rfl⟩)
  | beginFrame =>
    refine .inr (.inr ⟨?_, fun _ => rfl, fun _ => rfl⟩)
    simp only [after, run, beginFrame, Noted.value_pure]
    split_ifs <;> rfl
  | _ => exact .inr (.inr ⟨rfl, fun _ => rfl, fun _ => rfl⟩)

/-- One step of a run at a pace without failures. -/
theorem timely (tidy : turn.before.core.Tidy) (allowed : pace.Allows turn.call)
    (ok : turn.outcome = .ok ()) (h : turn.before.table.Timely pace) :
    turn.after.table.Timely (pace.after turn.call) := by
  rcases turn.quiet_or with ⟨block, call⟩ | ⟨time, ended⟩ | ⟨table, same, -⟩
  · have begun : (pace.after turn.call).tick = some block.time := by rw [call]; rfl
    have started : turn.before.table.Timely (pace.after turn.call) := by
      rw [call] at allowed ⊢
      exact fun id replica held => (h id replica held).begin allowed
    refine (run_keeps (P := fun _ core => core.table.Timely (pace.after turn.call)) turn.call [] ?_
      tidy started).2
    intro _ core es next _ h step
    rw [call] at step
    exact Input.timely step begun h
  · rw [ended] at allowed ⊢
    intro id replica left
    obtain ⟨old, held, rfl, ongoing⟩ := left_shown tidy ended ok left
    have timely := (h id old held).confirm (turn.before.confirmed id)
    cases taken : (old.confirm (turn.before.confirmed id)).removalSentAt with
    | none => exact timely.emitted_of_unsent allowed taken
    | some sent => exact absurd (timely.last_removal allowed taken).2.2 ongoing
  · rw [table, same]
    exact h

theorem after_block {block : StateBlock} (tidy : turn.before.core.Tidy)
    (call : turn.call = .stateChanged block) (held : turn.before.table.get? id = some replica) :
    turn.after.table.get? id = some (replica.play
      (block.callsFor (turn.before.blockZoneId block) replica.entity)) := by
  have changed := stateChanged_get? block tidy held
  rw [after, call]
  exact changed

/-- Within a tick only an update of its entity touches an object whose removal was sent. -/
theorem keeps_sent (tidy : turn.before.core.Tidy) (timely : replica.Timely pace)
    (allowed : pace.Allows turn.call) (within : turn.endsTick = false)
    (held : turn.before.table.get? id = some replica) (sent : replica.removalSentAt.isSome) :
    if turn.refreshes replica.entity then ∃ again, turn.after.table.get? id = some again ∧
      again.entity = replica.entity ∧ again.Anew
    else turn.after.table.get? id = some replica := by
  rcases turn.quiet_or with ⟨block, call⟩ | ⟨time, ended⟩ | ⟨table, -, idle⟩
  · have changed := after_block tidy call held
    have refreshes : turn.refreshes replica.entity = block.refreshes replica.entity := by
      rw [Turn.refreshes, call]
    rw [call] at allowed
    rw [refreshes]
    split_ifs with refreshed
    · refine ⟨_, changed, (replica.play_names _).2, ?_⟩
      exact Replica.play_refreshed (timely.begin allowed) rfl sent refreshed
    · obtain ⟨time, taken⟩ := Option.isSome_iff_exists.1 sent
      rw [changed, Replica.play_unrefreshed (timely.sent time taken).1 (by simpa using refreshed)]
  · rw [endsTick, ended] at within
    cases within
  · rw [idle, table]
    exact held

theorem keeps_anew (tidy : turn.before.core.Tidy) (within : turn.endsTick = false)
    (held : turn.before.table.get? id = some replica) (anew : replica.Anew) :
    ∃ again, turn.after.table.get? id = some again ∧ again.entity = replica.entity ∧
      again.Anew := by
  rcases turn.quiet_or with ⟨block, call⟩ | ⟨time, ended⟩ | ⟨table, -⟩
  · exact ⟨_, after_block tidy call held, (replica.play_names _).2,
      anew.play Replica.ingests_of_callsFor⟩
  · rw [endsTick, ended] at within
    cases within
  · exact ⟨replica, table ▸ held, rfl, anew⟩

theorem showsRemoved_of_announces (announces : turn.announces entity id) :
    turn.showsRemoved id := by
  obtain ⟨event, noted, shown⟩ := List.any_eq_true.1 announces
  cases event with
  | queued message owner snapshot state =>
    simp only [Event.announces, Bool.and_eq_true, decide_eq_true_eq] at shown
    have sent : state ∈ turn.states := List.mem_filterMap.2 ⟨_, noted, rfl⟩
    refine List.any_eq_true.2 ⟨state, sent, ?_⟩
    simp [shown]
  | _ => cases shown

end Turn

/-- The operations since the last update of `entity`, the latest first. -/
def sinceUpdate (entity : EntityId) (past : List Turn) : List Turn :=
  past.reverse.takeWhile fun turn => !turn.refreshes entity

theorem sinceUpdate_concat (entity : EntityId) (past : List Turn) (turn : Turn) :
    sinceUpdate entity (past ++ [turn]) =
      if turn.refreshes entity then [] else turn :: sinceUpdate entity past := by
  simp only [sinceUpdate, List.reverse_append, List.reverse_singleton, List.singleton_append,
    List.takeWhile_cons]
  cases turn.refreshes entity <;> rfl

structure OnPace (pace : Pace) (past : List Turn) (session : Session) : Prop where
  timely : session.table.Timely pace
  shown : ∀ entity id, session.table.removalSent entity id →
    ∃ turn ∈ sinceUpdate entity past, turn.showsRemoved id

variable {pace : Pace} {past : List Turn} {turn : Turn}

theorem OnPace.step (h : OnPace pace past turn.before) (tidy : turn.before.core.Tidy)
    (allowed : pace.Allows turn.call) (ok : turn.outcome = .ok ()) :
    OnPace (pace.after turn.call) (past ++ [turn]) turn.after where
  timely := turn.timely tidy allowed ok h.timely
  shown entity id sent := by
    have staged : turn.before.table.Staged :=
      fun id replica held => (h.timely id replica held).staged
    rw [sinceUpdate_concat]
    by_cases ended : ∃ time, turn.call = .endFrame time
    · obtain ⟨time, ended⟩ := ended
      have announces : turn.announces entity id := by
        refine (turn.announces_or_fails tidy staged sent time ended).resolve_right ?_
        rintro ⟨error, failed⟩
        rw [failed] at ok
        cases ok
      have idle : turn.refreshes entity = false := by rw [Turn.refreshes, ended]
      rw [idle]
      exact ⟨turn, List.mem_cons_self, Turn.showsRemoved_of_announces announces⟩
    · push Not at ended
      have before := (run_outside ended tidy staged).sent entity id sent
      obtain ⟨replica, held, rfl, taken⟩ := ReplicaTable.removalSent_iff.1 before
      have within : turn.endsTick = false := by
        unfold Turn.endsTick
        split
        · exact absurd ‹_› (ended _)
        · rfl
      have kept := turn.keeps_sent tidy (h.timely id replica held) allowed within held taken
      split_ifs at kept ⊢
      · obtain ⟨again, held, -, anew⟩ := kept
        obtain ⟨other, ho, -, taken⟩ := ReplicaTable.removalSent_iff.1 sent
        obtain rfl := Option.some.inj (held.symm.trans ho)
        rw [anew.unsent] at taken
        cases taken
      · obtain ⟨earlier, he, shown⟩ := h.shown _ id before
        exact ⟨earlier, List.mem_cons_of_mem _ he, shown⟩

/-- A tick in which the removal of `replica` has been sent is behind, and the next is not over. -/
structure Awaited (id : NetId) (replica : Replica) (pace : Pace) (since : List Turn)
    (session : Session) : Prop where
  timely : session.table.Timely pace
  object : (∀ turn ∈ since, turn.endsTick = false) →
    if since.any fun turn => turn.refreshes replica.entity then
      ∃ again, session.table.get? id = some again ∧ again.entity = replica.entity ∧ again.Anew
    else session.table.get? id = some replica

theorem Awaited.step {id : NetId} {replica : Replica} (sent : replica.removalSentAt.isSome)
    (h : Awaited id replica pace past turn.before) (tidy : turn.before.core.Tidy)
    (allowed : pace.Allows turn.call) (ok : turn.outcome = .ok ()) :
    Awaited id replica (pace.after turn.call) (past ++ [turn]) turn.after where
  timely := turn.timely tidy allowed ok h.timely
  object within := by
    have last := within turn (by simp)
    have object := h.object fun other ho => within other (by simp [ho])
    rw [List.any_append, List.any_cons, List.any_nil, Bool.or_false]
    cases updated : past.any fun turn => turn.refreshes replica.entity with
    | true =>
      simp only [updated, if_true, Bool.true_or] at object ⊢
      obtain ⟨again, held, entity, anew⟩ := object
      obtain ⟨next, held, same, anew⟩ := turn.keeps_anew tidy last held anew
      exact ⟨next, held, same.trans entity, anew⟩
    | false =>
      simp only [updated, Bool.false_eq_true, if_false, Bool.false_or] at object ⊢
      exact turn.keeps_sent tidy (h.timely id replica object) allowed last object sent

section Next

variable {id : NetId} {replica : Replica} {sent time : Time}

/-- If nothing updates the entity, the next end of a tick shows the object removed once more. -/
theorem Awaited.drops (h : Awaited id replica pace past turn.before)
    (tidy : turn.before.core.Tidy) (allowed : pace.Allows turn.call) (ok : turn.outcome = .ok ())
    (ended : turn.call = .endFrame time) (taken : replica.removalSentAt = some sent)
    (held : turn.before.table.get? id = some replica) :
    (∃ state ∈ turn.states, state.netId = id ∧ state.removed ∧ state.version = sent) ∧
      turn.after.table.get? id = none ∧ turn.after.names.Quarantined id := by
  rw [ended] at allowed
  have rest := replica.confirm_rest (turn.before.confirmed id)
  have timely := (h.timely id replica held).confirm (turn.before.confirmed id)
  have shows := turn.shows tidy ended ok held
  generalize replica.confirm (turn.before.confirmed id) = confirmed at rest timely shows
  have taken : confirmed.removalSentAt = some sent := by
    rw [rest]
    exact taken
  obtain ⟨removed, version, complete⟩ := timely.last_removal allowed taken
  refine ⟨⟨_, shows.state, ?_, removed, version⟩, ?_, shows.quarantined complete⟩
  · rw [confirmed.shownAt_delta_netId, shows.netId]
  · rw [shows.table, if_pos complete]

end Next

end Session

end AreaReplication
