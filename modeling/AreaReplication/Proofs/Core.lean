import AreaReplication.Proofs.Names
import AreaReplication.Proofs.Outbox
import AreaReplication.Proofs.Table
import AreaReplication.Session
import Mathlib.Data.List.Nodup

/-!
# The steps of a session

Apart from the window and the statistics, a session is its network ids, its objects and its outbox:
its `Core`. Every operation is a path of steps on the core. Input takes over what a zone reports at
the time of its tick, output is all that the end of a tick does.
-/
namespace AreaReplication

structure Core where
  names : Names
  table : ReplicaTable
  box : Outbox

def Session.core (session : Session) : Core := ⟨session.names, session.table, session.outbox⟩

namespace Replica

/-- The object as the frame at `time` shows it. -/
def shownAt (replica : Replica) (time : Time) : Replica := (Projection.ready time replica).value.2

/-- The object once the frame at `time` has shown it. -/
def emittedAt (replica : Replica) (time : Time) : Replica :=
  ((replica.shownAt time).emit time).value.2

variable (replica : Replica) (time : Time)

theorem shownAt_follows : Follows replica (replica.shownAt time) :=
  (replica.expire_follows time).trans (advanceRemoval_follows _ time)

theorem shownAt_current : (replica.shownAt time).current = replica.current ∨
    (replica.version < time ∧ (replica.shownAt time).current =
      { replica.current with version := time, removed := true }) := by
  have hs : (replica.shownAt time).current = (replica.expire time).2.current :=
    advanceRemoval_current _ time
  rw [hs]
  rcases replica.expire_cases time with h | ⟨hv, h⟩
  · exact .inl (by rw [h])
  · exact .inr ⟨hv, by rw [h]⟩

theorem version_le_shownAt : replica.version ≤ (replica.shownAt time).version := by
  simp only [version]
  rcases replica.shownAt_current time with hc | ⟨hlt, hc⟩
  · rw [hc]
    exact UInt64.le_rfl
  · rw [hc]
    exact UInt64.le_of_lt hlt

@[simp] theorem emittedAt_netId : (replica.emittedAt time).netId = replica.netId := by
  rw [emittedAt, emit_netId]
  exact (replica.shownAt_follows time).netId

@[simp] theorem emittedAt_entity : (replica.emittedAt time).entity = replica.entity := by
  rw [emittedAt, emit_entity]
  exact (replica.shownAt_follows time).entity

@[simp] theorem emittedAt_current :
    (replica.emittedAt time).current = (replica.shownAt time).current :=
  emit_current _ _

theorem shownAt_delta_netId : (replica.shownAt time).delta.netId = replica.netId := by
  rw [delta_netId]
  exact (replica.shownAt_follows time).netId

variable {replica} in
theorem shownAt_sound (h : Sound replica) : Sound (replica.shownAt time) :=
  advanceRemoval_sound time (expire_sound time h)

variable {replica} in
theorem emittedAt_sound (h : Sound replica) : Sound (replica.emittedAt time) :=
  emit_sound (shownAt_sound time h)

end Replica

namespace Core

/-- A step that takes over what happened at `now`. -/
inductive Input (now : Time) : Core → List Event → Core → Prop where
  | remark (core : Core) {event : Event} (h : event.isRemark) : Input now core [event] core
  | update (core : Core) {entity : EntityId} {id : NetId} {names : Names} {events : List Event}
      (assigned : core.names.assign entity = ⟨(some id, names), events⟩)
      (zone : Zone) (zoneId : UInt32) (position : Vec3) (rotation : Quat) :
      Input now core events { core with
        names
        table := core.table.put
          ((core.table.getOrNew id entity).update now zone zoneId position rotation).value.2 }
  | removal (core : Core) {id : NetId} {replica : Replica}
      (held : core.table.get? id = some replica) (zone : Zone) :
      Input now core [] { core with table := core.table.put (replica.removeFrom now zone).2 }

/-- The core once the acknowledgment of a recorded message has been worked off; `box` is the outbox
without the record. -/
def settle (core : Core) (record : SentRecord) (box : Outbox) : Core where
  names := core.names
  table := (core.table.commit record).value.2
  box := if (core.table.commit record).value.1.settled then box.echo record.id else box

/-- A step of the end of the tick at `now`, at which `acked` are acknowledged. -/
inductive Output (link : Link) (now : Time) (acked : List MessageId) :
    Core → List Event → Core → Prop where
  | outbox (core : Core) {events : List Event} {box : Outbox}
      (h : Outbox.Step link core.box events box) :
      Output link now acked core events { core with box }
  | settle (core : Core) {id : MessageId} {record : SentRecord} {box : Outbox} (posted : id ∈ acked)
      (recorded : core.box.takeRecord id = some (record, box)) :
      Output link now acked core [] (core.settle record box)
  | release (core : Core) :
      Output link now acked core []
        { core with names := (core.names.release core.box.settledBefore).2 }
  | present (core : Core) {replica : Replica}
      (held : core.table.get? replica.netId = some replica) :
      Output link now acked core []
        { core with table := core.table.put (replica.emittedAt now) }
  | queue (core : Core) {replica : Replica} (held : core.table.get? replica.netId = some replica)
      (opened : core.box.frames ≠ []) :
      Output link now acked core
        [.queued core.box.nextId replica.entity (replica.shownAt now).current
          (replica.shownAt now).delta]
        { core with
          table := core.table.put (replica.emittedAt now)
          box := core.box.appendState (replica.shownAt now).delta }
  | reap (core : Core) {replica : Replica} (held : core.table.get? replica.netId = some replica)
      (gone : replica.removal = .complete) :
      Output link now acked core (core.names.retire replica.netId core.box.nextId).events
        { core with
          names := (core.names.retire replica.netId core.box.nextId).value
          table := core.table.erase replica.netId }

/-- Every object stands under its own network id, which the names give to its entity. -/
structure Tidy (core : Core) : Prop where
  keyed : core.table.Keyed
  ordered : core.table.Sound
  names : core.names.Sound
  tracked : ∀ id replica, core.table.get? id = some replica →
    core.names.entityOf? id = some replica.entity

variable {core next : Core} {events : List Event}

theorem Input.box {now : Time} (h : Input now core events next) : next.box = core.box := by
  cases h <;> rfl

theorem Input.silent {now : Time} (h : Input now core events next) (tidy : core.Tidy) :
    Silent events := by
  cases h with
  | remark hr => exact .of_remark hr
  | @update entity _ _ _ assigned =>
    intro event he
    have he : event ∈ (core.names.assign entity).events := by
      rw [assigned]
      exact he
    obtain ⟨_, _, rfl, _⟩ := Names.assign_events tidy.names he
    rfl
  | removal => exact silent_nil

theorem retire_silent (names : Names) (id : NetId) (watermark : MessageId) :
    Silent (names.retire id watermark).events := by
  intro event he
  obtain ⟨_, rfl⟩ := Names.retire_events _ _ _ he
  rfl

theorem Tidy.box (h : core.Tidy) (box : Outbox) : Tidy { core with box } :=
  ⟨h.keyed, h.ordered, h.names, h.tracked⟩

/-- The object that an update finds or makes belongs to the updated entity. -/
theorem Tidy.getOrNew_entity (h : core.Tidy) {entity : EntityId} {id : NetId} {names : Names}
    (assigned : core.names.assign entity = ⟨(some id, names), events⟩) :
    (core.table.getOrNew id entity).entity = entity := by
  unfold ReplicaTable.getOrNew
  cases hg : core.table.get? id with
  | none => rfl
  | some replica =>
    have owner := h.tracked id replica hg
    rcases core.names.assign_cases entity with ⟨used, hi, hc⟩ | ⟨fresh, rest, _, ht, hc⟩ | hc
    · obtain rfl : used = id := by simpa [hc] using congrArg (·.value.1) assigned
      have held := (h.names.inverse _ _).2 hi
      exact Option.some.inj (owner.symm.trans held)
    · obtain rfl : fresh = id := by simpa [hc] using congrArg (·.value.1) assigned
      rw [(Names.take?_fresh h.names ht).unused] at owner
      cases owner
    · rw [hc] at assigned
      cases assigned

/-- Storing an object of the entity that its id belongs to. -/
theorem Tidy.put (h : core.Tidy) {replica : Replica} (sound : replica.Sound)
    (owned : core.names.entityOf? replica.netId = some replica.entity) (box : Outbox) :
    Tidy { core with table := core.table.put replica, box } where
  keyed := h.keyed.put replica
  ordered := h.ordered.put sound
  names := h.names
  tracked id other ho := by
    rcases ReplicaTable.get?_put_some ho with ⟨rfl, rfl⟩ | ⟨_, ho⟩
    · exact owned
    · exact h.tracked id other ho

theorem Tidy.assign (h : core.Tidy) {entity : EntityId} {id : NetId} {names : Names}
    (assigned : core.names.assign entity = ⟨(some id, names), events⟩) :
    Tidy { core with names } ∧ names.entityOf? id = some entity := by
  have sound := Names.assign_sound h.names entity
  have owned := Names.assign_entityOf? h.names assigned
  rw [assigned] at sound
  refine ⟨⟨h.keyed, h.ordered, sound, fun other replica ho => ?_⟩, owned.1⟩
  by_cases hid : other = id
  · subst hid
    have entity_eq := h.getOrNew_entity assigned
    simp only [ReplicaTable.getOrNew, ho, Option.getD_some] at entity_eq
    rw [entity_eq]
    exact owned.1
  · rw [owned.2 other hid]
    exact h.tracked other replica ho

theorem Input.tidy {now : Time} (h : Input now core events next) (ht : core.Tidy) : next.Tidy := by
  cases h with
  | remark => exact ht
  | @update entity id names _ assigned zone zoneId position rotation =>
    obtain ⟨tidy, owned⟩ := ht.assign assigned
    have follows := (core.table.getOrNew id entity).update_follows now zone zoneId position rotation
    refine tidy.put (Replica.update_sound _ _ _ _ _ (ht.ordered.getOrNew _ _)) ?_ core.box
    rw [follows.netId, follows.entity, ht.keyed.getOrNew, ht.getOrNew_entity assigned]
    exact owned
  | @removal id replica held zone =>
    have follows := replica.removeFrom_follows now zone
    refine ht.put (Replica.removeFrom_sound _ _ (ht.ordered _ _ held)) ?_ core.box
    rw [follows.netId, follows.entity, ht.keyed id replica held]
    exact ht.tracked id replica held

theorem Tidy.emit (h : core.Tidy) {replica : Replica}
    (held : core.table.get? replica.netId = some replica) (now : Time) (box : Outbox) :
    Tidy { core with table := core.table.put (replica.emittedAt now), box } := by
  refine h.put (Replica.emittedAt_sound _ (h.ordered _ _ held)) ?_ box
  rw [Replica.emittedAt_netId, Replica.emittedAt_entity]
  exact h.tracked _ replica held

theorem Output.tidy {link : Link} {now : Time} {acked : List MessageId}
    (h : Output link now acked core events next) (ht : core.Tidy) : next.Tidy := by
  cases h with
  | outbox => exact ht.box _
  | settle =>
    obtain ⟨keyed, ordered, confirms⟩ := ReplicaTable.commitStates_keeps ht.keyed ht.ordered
    refine ⟨keyed, ordered, ht.names, fun id replica held => ?_⟩
    obtain ⟨old, hold, hc⟩ := confirms.back held
    rw [hc.entity]
    exact ht.tracked id old hold
  | release => exact ⟨ht.keyed, ht.ordered, Names.release_sound ht.names, ht.tracked⟩
  | present held => exact ht.emit held now core.box
  | queue held => exact ht.emit held now _
  | reap held =>
    refine ⟨ht.keyed.erase _, ht.ordered.erase _, Names.retire_sound _ ht.names, ?_⟩
    intro id replica ho
    obtain ⟨other, ho⟩ := ReplicaTable.get?_erase_some ho
    rw [Names.retire_entityOf?, if_neg (Ne.symm other)]
    exact ht.tracked id replica ho

theorem tidy_of_path {link : Link} {now : Time} {acked : List MessageId}
    (h : Path (Output link now acked) core events next) (ht : core.Tidy) : next.Tidy :=
  h.keeps (P := fun _ core => core.Tidy) (fun _ _ _ _ hp step => step.tidy hp) [] ht

end Core

namespace Projection.Walk

/-- What a walk relies on that has the replicas `left` to visit: they are as they were before it,
and those it found complete it has visited. -/
structure Ahead (walked : Walk) (left : List Replica) : Prop where
  distinct : (left.map Replica.netId).Nodup
  held : ∀ replica ∈ left, walked.table.get? replica.netId = some replica
  once : walked.complete.Nodup
  visited : ∀ id ∈ walked.complete, id ∉ left.map Replica.netId
  complete : ∀ id ∈ walked.complete, ∃ replica,
    walked.table.get? id = some replica ∧ replica.removal = .complete

theorem Ahead.start {table : ReplicaTable} (keyed : table.Keyed) (box : Outbox) :
    Ahead { table, box } table.toList :=
  ⟨ReplicaTable.toList_distinct keyed, fun _ hr => (ReplicaTable.mem_toList keyed).1 hr,
    List.nodup_nil, nofun, nofun⟩

theorem Ahead.visit {walked next : Walk} {replica : Replica} {rest : List Replica} {now : Time}
    (h : walked.Ahead (replica :: rest))
    (table : next.table = walked.table.put (replica.emittedAt now))
    (found : next.complete = if (replica.emittedAt now).removal = .complete then
      replica.netId :: walked.complete else walked.complete) : next.Ahead rest := by
  obtain ⟨fresh, distinct⟩ := List.nodup_cons.1 h.distinct
  have visited : ∀ id ∈ walked.complete, id ≠ replica.netId ∧ id ∉ rest.map Replica.netId := by
    intro id hid
    simpa only [List.map_cons, List.mem_cons, not_or] using h.visited id hid
  have get : ∀ id, id ≠ replica.netId → next.table.get? id = walked.table.get? id := by
    intro id hid
    rw [table, ReplicaTable.get?_put, Replica.emittedAt_netId, if_neg hid.symm]
  have complete : ∀ id ∈ next.complete, id ∈ walked.complete ∨
      (id = replica.netId ∧ (replica.emittedAt now).removal = .complete) := by
    intro id hid
    rw [found] at hid
    split_ifs at hid with gone
    · exact (List.mem_cons.1 hid).symm.imp_right fun he => ⟨he, gone⟩
    · exact .inl hid
  constructor
  · exact distinct
  · intro other ho
    rw [get other.netId fun he => fresh (he ▸ List.mem_map_of_mem ho)]
    exact h.held other (List.mem_cons_of_mem _ ho)
  · rw [found]
    split_ifs
    · exact List.nodup_cons.2 ⟨fun hc => (visited _ hc).1 rfl, h.once⟩
    · exact h.once
  · intro id hid
    rcases complete id hid with hid | ⟨rfl, _⟩
    · exact (visited id hid).2
    · exact fresh
  · intro id hid
    rcases complete id hid with hid | ⟨rfl, gone⟩
    · rw [get id (visited id hid).1]
      exact h.complete id hid
    · refine ⟨_, ?_, gone⟩
      rw [table, ReplicaTable.get?_put, Replica.emittedAt_netId, if_pos rfl]

end Projection.Walk

namespace Session

open AreaReplication.Core

section Input

variable (session : Session) (block : StateBlock)

theorem applyUpdate_path (zoneId : UInt32) (state : EntityState) :
    Path (Input block.time) session.core (session.applyUpdate block zoneId state).events
      (session.applyUpdate block zoneId state).value.core := by
  cases ha : session.names.assign state.entity with
  | mk answer events =>
    obtain ⟨id, names⟩ := answer
    simp only [applyUpdate, ha, Noted.events_bind, Noted.value_bind]
    cases id with
    | none =>
      obtain ⟨rfl, rfl⟩ : names = session.names ∧ events = [] := by
        rcases session.names.assign_cases state.entity with
          ⟨_, _, hc⟩ | ⟨_, _, _, _, hc⟩ | hc <;> simp_all
      exact .single (.remark session.core rfl)
    | some id =>
      have step : Path (Input block.time) session.core _ _ :=
        .single (.update session.core ha block.zone zoneId state.position state.rotation)
      have noted : ∀ core, Path (Input block.time) core ((session.table.getOrNew id
          state.entity).update block.time block.zone zoneId state.position state.rotation).events
          core := by
        intro core
        unfold Replica.update
        split_ifs
        · exact .refl _
        · simp only [Noted.events_bind, Noted.events_pure, List.append_nil]
          exact .noteIf _ (.remark _ rfl)
      refine step.trans ?_
      simp only [Noted.events_bind, Noted.value_bind]
      refine (noted _).trans ?_
      split_ifs
      · exact .refl _
      · exact .refl _
      · exact .single (.remark _ rfl)

theorem applyRemoval_path (entity : EntityId) :
    Path (Input block.time) session.core [] (session.applyRemoval block entity).core := by
  unfold applyRemoval
  cases session.names.idOf? entity with
  | none => exact .refl _
  | some id =>
    cases hr : session.table.get? id with
    | none => simp only [hr]; exact .refl _
    | some replica =>
      simp only [hr]
      exact .single (.removal session.core hr block.zone)

theorem stateChanged_path :
    Path (Input block.time) session.core (session.stateChanged block).events
      (session.stateChanged block).value.core := by
  have updates : ∀ (states : List EntityState) (session : Session) (zoneId : UInt32),
      Path (Input block.time) session.core
        (states.foldlM (applyUpdate block zoneId) session).events
        (states.foldlM (applyUpdate block zoneId) session).value.core := by
    intro states
    induction states with
    | nil => exact fun session _ => .refl session.core
    | cons state rest ih =>
      intro session zoneId
      exact (session.applyUpdate_path block zoneId state).trans (ih _ zoneId)
  have removals : ∀ (entities : List EntityId) (session : Session),
      Path (Input block.time) session.core []
        (entities.foldl (applyRemoval block) session).core := by
    intro entities
    induction entities with
    | nil => exact fun session => .refl session.core
    | cons entity rest ih =>
      intro session
      exact (session.applyRemoval_path block entity).trans (ih _)
  have outside : Path (Input block.time) session.core
      (noteIf (!session.window.contains block.zone)
        (.zoneOutOfView block.zone block.time)).events session.core :=
    .noteIf _ (.remark _ rfl)
  exact outside.trans ((updates _ session _).trans (removals _ _))

end Input

section Output

variable (link : Link) (now : Time) (acked : List MessageId)

theorem settle_path (names : Names) (table : ReplicaTable) (box : Outbox) {id : MessageId}
    (posted : id ∈ acked) : Path (Output link now acked) ⟨names, table, box⟩
      (Intake.settle box table id).events
      ⟨names, (Intake.settle box table id).value.2.2, (Intake.settle box table id).value.2.1⟩ := by
  unfold Intake.settle
  cases ht : box.takeRecord id with
  | none => exact .single (.outbox _ (.remark box rfl))
  | some taken =>
    obtain ⟨record, rest⟩ := taken
    have noted : Path (Output link now acked) ⟨names, table, box⟩
        (table.commit record).events ⟨names, table, box⟩ := by
      refine .remarks fun event he => .outbox _ (.remark box ?_)
      obtain ⟨_, _, rfl⟩ := ReplicaTable.commitStates_events he
      rfl
    have step := noted.tail (.settle _ posted ht)
    simp only [List.append_nil, settle] at step
    simp only [Noted.events_bind, Noted.value_bind]
    split_ifs with hs
    · simpa [hs] using step
    · simpa [hs] using step

theorem settleAll_path (names : Names) (acks : List Ack) (posted : ∀ ack ∈ acks, ack.id ∈ acked)
    (ping : Ping) (table : ReplicaTable) (box : Outbox) :
    Path (Output link now acked) ⟨names, table, box⟩
      (Intake.settleAll acks ping box table).events
      ⟨names, (Intake.settleAll acks ping box table).value.2.2.2,
        (Intake.settleAll acks ping box table).value.2.2.1⟩ := by
  induction acks generalizing ping table box with
  | nil => exact .refl _
  | cons ack rest ih =>
    have pinged : Path (Output link now acked) ⟨names, table, box⟩
        (ping.record ack.roundTrip).events ⟨names, table, box⟩ := by
      simp only [Ping.record, Noted.events_bind, Noted.events_pure, List.append_nil]
      exact .noteIf _ (.outbox _ (.remark box rfl))
    have first := settle_path link now acked names table box (posted ack (by simp))
    have others := ih (fun other ho => posted other (by simp [ho]))
      (ping.record ack.roundTrip).value (Intake.settle box table ack.id).value.2.2
      (Intake.settle box table ack.id).value.2.1
    simp only [Intake.settleAll, Noted.events_bind, Noted.value_bind, Noted.events_pure,
      Noted.value_pure, List.append_nil]
    exact pinged.trans (first.trans others)

theorem settle_tracks {names : Names} {table : ReplicaTable} {box : Outbox} (id : MessageId)
    (tidy : Tidy ⟨names, table, box⟩) {entity : EntityId} {object : NetId}
    (tracked : table.tracks entity object) :
    (Intake.settle box table id).value.2.2.tracks entity object := by
  unfold Intake.settle
  cases box.takeRecord id with
  | none => exact tracked
  | some taken =>
    obtain ⟨record, rest⟩ := taken
    have confirmed : (table.commit record).value.2.tracks entity object :=
      (ReplicaTable.commitStates_keeps tidy.keyed tidy.ordered).2.2.tracks tracked
    simp only [Noted.value_bind]
    split_ifs
    · exact confirmed
    · exact confirmed

/-- Acknowledgments leave every object in place. -/
theorem settleAll_tracks {names : Names} (acks : List Ack) (ping : Ping) {table : ReplicaTable}
    {box : Outbox} (tidy : Tidy ⟨names, table, box⟩) {entity : EntityId} {object : NetId}
    (tracked : table.tracks entity object) :
    (Intake.settleAll acks ping box table).value.2.2.2.tracks entity object := by
  induction acks generalizing ping table box with
  | nil => exact tracked
  | cons ack rest ih =>
    have path := settle_path (Line.link {}) 0 [ack.id] names table box
      (List.mem_singleton_self ack.id)
    simp only [Intake.settleAll, Noted.value_bind, Noted.value_pure]
    exact ih _ (tidy_of_path path tidy) (settle_tracks ack.id tidy tracked)

/-- Steps of the outbox alone. -/
theorem outbox_path (names : Names) (table : ReplicaTable) {box next : Outbox}
    {events : List Event} (h : Path (Outbox.Step link) box events next) :
    Path (Output link now acked) ⟨names, table, box⟩ events ⟨names, table, next⟩ := by
  have lift : ∀ box events next, Outbox.Step link box events next →
      Output link now acked ⟨names, table, box⟩ events ⟨names, table, next⟩ :=
    fun box _ _ step => .outbox ⟨names, table, box⟩ step
  exact h.map (Core.mk names table) lift

theorem visit_path (names : Names) (walked : Projection.Walk) {replica : Replica}
    (held : walked.table.get? replica.netId = some replica) :
    Path (Output link now acked) ⟨names, walked.table, walked.box⟩
        (Projection.visit link now walked replica).events
        ⟨names, walked.table.put (replica.emittedAt now),
          (Projection.visit link now walked replica).value.2.box⟩ ∧
      (Projection.visit link now walked replica).value.2.table =
        walked.table.put (replica.emittedAt now) ∧
      ((Projection.visit link now walked replica).value.1 = .ok () →
        (Projection.visit link now walked replica).value.2.complete =
          if (replica.emittedAt now).removal = .complete then replica.netId :: walked.complete
          else walked.complete) := by
  have noted : Path (Output link now acked) ⟨names, walked.table, walked.box⟩
      (Projection.ready now replica).events ⟨names, walked.table, walked.box⟩ := by
    simp only [Projection.ready, Noted.events_bind, Noted.events_pure, List.append_nil]
    exact .noteIf _ (.outbox _ (.remark walked.box rfl))
  have refused : Path (Output link now acked) ⟨names, walked.table, walked.box⟩
      ((replica.shownAt now).emit now).events ⟨names, walked.table, walked.box⟩ := by
    simp only [Replica.emit, Noted.events_bind, Noted.events_pure, List.append_nil]
    unfold Replica.recordCurrent
    split_ifs
    · exact .refl _
    · split
      · exact .refl _
      · exact .single (.outbox _ (.remark walked.box rfl))
  obtain ⟨before, sending, outcome⟩ := walked.box.addState_path link (replica.shownAt now).delta
  have sending := outbox_path link now acked names walked.table sending
  have start := noted.trans (refused.trans sending)
  have shown : (Projection.ready now replica).value.2 = replica.shownAt now := rfl
  have emitted : ((replica.shownAt now).emit now).value.2 = replica.emittedAt now := rfl
  simp only [Projection.visit, Noted.events_bind, Noted.value_bind, Replica.emit_state, shown,
    emitted]
  rcases outcome with ⟨hv, opened⟩ | ⟨error, hv⟩
  · have queued : Output link now acked _ _ _ :=
      .queue ⟨names, walked.table, before⟩ held opened
    have path := start.tail queued
    simp only [hv, note, Noted.events_bind, Noted.value_bind, Noted.events_pure, Noted.value_pure,
      List.append_nil, List.append_assoc, Replica.emittedAt_entity, Replica.emittedAt_current,
      Replica.emittedAt_netId] at path ⊢
    exact ⟨path, trivial, fun _ => trivial⟩
  · have showed : Output link now acked _ _ _ := .present ⟨names, walked.table, before⟩ held
    have path := start.tail showed
    simp only [hv, Noted.events_pure, Noted.value_pure, List.append_nil] at path ⊢
    exact ⟨path, trivial, fun h => by cases h⟩

theorem walk_path (names : Names) (replicas : List Replica) (walked : Projection.Walk)
    (ahead : walked.Ahead replicas) :
    Path (Output link now acked) ⟨names, walked.table, walked.box⟩
        (Projection.walk link now replicas walked).events
        ⟨names, (Projection.walk link now replicas walked).value.2.table,
          (Projection.walk link now replicas walked).value.2.box⟩ ∧
      ((Projection.walk link now replicas walked).value.1 = .ok () →
        (Projection.walk link now replicas walked).value.2.Ahead []) := by
  induction replicas generalizing walked with
  | nil => exact ⟨.refl _, fun _ => ahead⟩
  | cons replica rest ih =>
    obtain ⟨path, table, found⟩ :=
      visit_path link now acked names walked (ahead.held replica List.mem_cons_self)
    simp only [Projection.walk, Noted.events_bind, Noted.value_bind]
    cases outcome : (Projection.visit link now walked replica).value.1 with
    | error error =>
      simp only [Noted.events_pure, Noted.value_pure, List.append_nil, table]
      exact ⟨path, fun h => by cases h⟩
    | ok =>
      obtain ⟨onward, finished⟩ :=
        ih (Projection.visit link now walked replica).value.2 (ahead.visit table (found outcome))
      rw [← table] at path
      exact ⟨path.trans onward, finished⟩

theorem reap_path (ids : List NetId) (names : Names) (table : ReplicaTable) (box : Outbox)
    (keyed : table.Keyed) (once : ids.Nodup)
    (complete : ∀ id ∈ ids, ∃ replica, table.get? id = some replica ∧ replica.removal = .complete) :
    Path (Output link now acked) ⟨names, table, box⟩
      (Projection.reap box.nextId ids table names).events
      ⟨(Projection.reap box.nextId ids table names).value.2,
        (Projection.reap box.nextId ids table names).value.1, box⟩ := by
  induction ids generalizing names table with
  | nil => exact .refl _
  | cons id rest ih =>
    rw [List.nodup_cons] at once
    obtain ⟨replica, held, gone⟩ := complete id (by simp)
    obtain rfl := keyed id replica held
    have noted : Path (Output link now acked) ⟨names, table, box⟩
        [.reaped replica.entity replica.netId] ⟨names, table, box⟩ :=
      .single (.outbox _ (.remark box rfl))
    have path := noted.tail (.reap _ held gone)
    have onward := ih (names.retire replica.netId box.nextId).value (table.erase replica.netId)
      (keyed.erase _) once.2 (by
        intro other ho
        rw [ReplicaTable.get?_erase, if_neg (by rintro rfl; exact once.1 ho)]
        exact complete other (by simp [ho]))
    simp only [Projection.reap, held, Noted.events_bind, Noted.value_bind, note]
    rw [← List.append_assoc]
    exact path.trans onward

theorem project_path (names : Names) (table : ReplicaTable) (box : Outbox)
    (tidy : Tidy ⟨names, table, box⟩) :
    Path (Output link now acked) ⟨names, table, box⟩
      (Projection.project link now table names box).events
      ⟨(Projection.project link now table names box).value.2.2.1,
        (Projection.project link now table names box).value.2.1,
        (Projection.project link now table names box).value.2.2.2⟩ := by
  obtain ⟨path, finished⟩ :=
    walk_path link now acked names table.toList { table, box } (.start tidy.keyed box)
  simp only [Projection.project, Noted.events_bind, Noted.value_bind]
  cases outcome : (Projection.walk link now table.toList { table, box }).value.1 with
  | error error =>
    simpa only [Noted.events_pure, Noted.value_pure, List.append_nil] using path
  | ok =>
    have ahead := finished outcome
    have walked := tidy_of_path path tidy
    have onward := reap_path link now acked
      (Projection.walk link now table.toList { table, box }).value.2.complete.reverse names _
      (Projection.walk link now table.toList { table, box }).value.2.box walked.keyed
      (List.nodup_reverse.2 ahead.once) (fun id hid => ahead.complete id (List.mem_reverse.1 hid))
    simp only [Noted.events_bind, Noted.value_bind, Noted.events_pure, Noted.value_pure,
      List.append_nil]
    exact path.trans onward

variable (session : Session)

theorem recenter_core : session.recenter.value.core = session.core := by
  unfold recenter
  dsimp only
  split_ifs <;> rfl

theorem recenter_remarks : ∀ event ∈ session.recenter.events, event.isRemark := by
  intro event he
  unfold recenter at he
  dsimp only at he
  split_ifs at he
  · obtain rfl := List.mem_singleton.1 he
    rfl
  · cases he
  · cases he

/-- What comes of ending a tick: it fails before a frame is open, or sends the objects in it. No
object is dropped before the frame is open. -/
inductive Ended (session : Session) : Except SendError Unit → List Event → Core → Prop where
  | unopened {error : SendError} {started : List Event} {core : Core}
      (path : Path (Output link now (session.intake.queue.map Ack.id)) session.core started core)
      (kept : ∀ entity id, session.table.tracks entity id → core.table.tracks entity id) :
      Ended session (.error error) started core
  | projected {names : Names} {table : ReplicaTable} {box : Outbox} {started noted : List Event}
      (path : Path (Output link now (session.intake.queue.map Ack.id)) session.core started
        ⟨names, table, box⟩)
      (kept : ∀ entity id, session.table.tracks entity id → table.tracks entity id)
      (remarks : ∀ event ∈ noted, event.isRemark) :
      Ended session ((Projection.project link now table names box).value.1.map fun _ => ())
        (started ++ (Projection.project link now table names box).events ++ noted)
        ⟨(Projection.project link now table names box).value.2.2.1,
          (Projection.project link now table names box).value.2.1,
          (Projection.project link now table names box).value.2.2.2⟩

theorem endFrame_ended (tidy : session.core.Tidy) :
    Ended link now session (session.endFrame link now).value.1 (session.endFrame link now).events
      (session.endFrame link now).value.2.core := by
  have kept : ∀ entity id, session.table.tracks entity id → (Intake.settleAll session.intake.queue
      session.intake.ping session.outbox session.table).value.2.2.2.tracks entity id :=
    fun _ _ => settleAll_tracks session.intake.queue session.intake.ping tidy
  have settled := settleAll_path link now (session.intake.queue.map Ack.id) session.names
    session.intake.queue (fun ack ha => List.mem_map_of_mem ha) session.intake.ping session.table
    session.outbox
  simp only [endFrame, Intake.drain, Noted.events_bind, Noted.value_bind, Noted.events_pure,
    Noted.value_pure, List.append_nil]
  -- Acknowledgments, ids that go free and the start of the frame make one path to begin with.
  generalize Intake.settleAll session.intake.queue session.intake.ping session.outbox session.table
    = drained at settled kept ⊢
  obtain ⟨⟨acks, ping, box, table⟩, drainEvents⟩ := drained
  dsimp only at settled kept ⊢
  have released := settled.tail (.release _)
  rw [List.append_nil] at released
  have started := released.trans (outbox_path link now _ _ _
    (box.startFrame_path link now session.window.center))
  generalize box.startFrame link now session.window.center = start at started ⊢
  obtain ⟨⟨outcome, box⟩, startEvents⟩ := start
  dsimp only at started ⊢
  cases outcome with
  | error error =>
    simp only [Noted.events_pure, Noted.value_pure, List.append_nil]
    exact .unopened started kept
  | ok =>
    have ended := fun noted => @Ended.projected link now session _ _ _ _ noted started kept
    simp only [Noted.events_bind, Noted.value_bind]
    generalize Projection.project link now table _ box = projection at ended ⊢
    obtain ⟨⟨summary, table, names, box⟩, projectEvents⟩ := projection
    dsimp only at ended ⊢
    cases summary with
    | error error =>
      have failed := ended [] nofun
      simp only [Noted.events_pure, Noted.value_pure, List.append_nil]
      rw [List.append_nil, List.append_assoc] at failed
      exact failed
    | ok summary =>
      have core := recenter_core { session with intake := { ping }, outbox := box, table, names }
      have done := ended _ (recenter_remarks
        { session with intake := { ping }, outbox := box, table, names })
      simp only [Noted.events_bind, Noted.value_bind, Noted.events_pure, Noted.value_pure,
        List.append_nil]
      rw [List.append_assoc, List.append_assoc] at done
      simp only [Session.core, Core.mk.injEq] at core ⊢
      rw [core.1, core.2.1, core.2.2]
      exact done

variable {link now session} in
theorem Ended.path {outcome : Except SendError Unit} {events : List Event} {next : Core}
    (h : Ended link now session outcome events next) (tidy : session.core.Tidy) :
    Path (Output link now (session.intake.queue.map Ack.id)) session.core events next := by
  cases h with
  | unopened path => exact path
  | projected path _ remarks =>
    have sent := path.trans (project_path link now _ _ _ _ (tidy_of_path path tidy))
    exact sent.trans (.remarks fun event he => .outbox _ (.remark _ (remarks event he)))

theorem endFrame_path (tidy : session.core.Tidy) :
    Path (Output link now (session.intake.queue.map Ack.id)) session.core
      (session.endFrame link now).events (session.endFrame link now).value.2.core :=
  (endFrame_ended link now session tidy).path tidy

end Output

end Session

end AreaReplication
