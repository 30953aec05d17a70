import AreaReplication.Proofs.Headers
import AreaReplication.Proofs.Objects
import AreaReplication.Proofs.Timely
import AreaReplication.Proofs.Visibility

/-!
# Zone numbers can be read with the frame that carries them

The number that an object has as its zone is worked out when a block refreshes the object, and is
sent at the end of the tick, in a frame that states the center of the window. In between the window
stays where it is, and an object that no block has refreshed since the window last moved is shown as
removed. So a number can always be looked up in the window around the center that comes with it.
-/
namespace AreaReplication

namespace Replica

variable {replica : Replica} {bound : Nat} {time : Time}

/-- The object is older than `bound`, and its snapshot says so if it is removed. -/
structure Dated (bound : Nat) (replica : Replica) : Prop where
  version_lt : replica.version.toNat < bound
  gone : replica.removal ≠ .active → replica.current.removed

namespace Dated

theorem mono {more : Nat} (le : bound ≤ more) (h : Dated bound replica) : Dated more replica :=
  ⟨Nat.lt_of_lt_of_le h.version_lt le, h.gone⟩

theorem of_new (netId : NetId) (entity : EntityId) (capacity : Nat) (bound : Nat) :
    Dated (bound + 1) (new netId entity capacity) :=
  ⟨Nat.succ_pos bound, fun removed => absurd rfl removed⟩

theorem version_le (h : Dated (time.toNat + 1) replica) : replica.version ≤ time :=
  UInt64.le_iff_toNat_le.2 (Nat.le_of_lt_succ h.version_lt)

theorem update (h : Dated (time.toNat + 1) replica) (zone : Zone) (zoneId : UInt32)
    (position : Vec3) (rotation : Quat) :
    Dated (time.toNat + 1) (replica.update time zone zoneId position rotation).value.2 ∧
      (replica.update time zone zoneId position rotation).value.2.current.zoneId = zoneId := by
  have active : replica.revive.removal = .active := by
    unfold revive
    split_ifs with active
    · exact active
    · rfl
    · rfl
  rw [update_eq h.version_le]
  exact ⟨⟨Nat.lt_succ_self _, fun removed => absurd active removed⟩, rfl⟩

theorem removeFrom (h : Dated (time.toNat + 1) replica) (zone : Zone) :
    Dated (time.toNat + 1) (replica.removeFrom time zone).2 ∧
      ((replica.removeFrom time zone).2.current = replica.current ∨
        (replica.removeFrom time zone).2.current.removed) := by
  rcases replica.removeFrom_marks time zone with same | ⟨-, marked⟩
  · rw [same]
    exact ⟨h, .inl rfl⟩
  · rw [marked]
    exact ⟨⟨Nat.lt_succ_self _, fun _ => rfl⟩, .inr rfl⟩

theorem removals (h : Dated (time.toNat + 1) replica) (zone : Zone) (entities : List EntityId) :
    let after := replica.play (entities.map fun _ => .removeFrom time zone)
    Dated (time.toNat + 1) after ∧ (after.current = replica.current ∨ after.current.removed) := by
  induction entities generalizing replica with
  | nil => exact ⟨h, .inl rfl⟩
  | cons entity rest ih =>
    obtain ⟨first, current⟩ := h.removeFrom zone
    obtain ⟨dated, onward⟩ := ih first
    refine ⟨dated, ?_⟩
    rcases onward with same | removed
    · rcases current with before | removed
      · exact .inl (same.trans before)
      · exact .inr ((congrArg Snapshot.removed same).trans removed)
    · exact .inr removed

/-- The end of a tick shows an object as present only if it was updated in that tick. -/
theorem shown (h : Dated (time.toNat + 1) replica) : Dated (time.toNat + 1) (replica.shownAt time) ∧
    ((replica.shownAt time).current.removed = false →
      (replica.shownAt time).current = replica.current ∧ replica.version = time) := by
  rw [shownAt_eq]
  by_cases active : replica.removal = .active
  · by_cases early : replica.version < time
    · have expired : (replica.expire time).2 = { replica with
          current := { replica.current with version := time, removed := true }
          removal := .marked } := by
        simp [expire, remove, active, early, UInt64.not_lt.2 h.version_le]
      rw [expired]
      refine ⟨⟨?_, fun _ => ?_⟩, fun present => ?_⟩
      · rw [version, advanceRemoval_current]
        exact Nat.lt_succ_self _
      · rw [advanceRemoval_current]
      · rw [advanceRemoval_current] at present
        cases present
    · have kept : (replica.expire time).2.advanceRemoval time = replica := by
        simp [expire, advanceRemoval, active, early]
      rw [kept]
      have reached := UInt64.le_antisymm h.version_le (UInt64.not_lt.1 early)
      exact ⟨h, fun _ => ⟨rfl, reached⟩⟩
  · have removed := h.gone active
    have kept : (replica.expire time).2 = replica := by simp [expire, active]
    rw [kept]
    refine ⟨⟨?_, fun _ => ?_⟩, fun present => ?_⟩
    · rw [version, advanceRemoval_current]
      exact h.version_lt
    · rw [advanceRemoval_current]
      exact removed
    · rw [advanceRemoval_current, removed] at present
      cases present

theorem emitted (h : Dated (time.toNat + 1) replica) :
    Dated (time.toNat + 1) (replica.emittedAt time) := by
  refine ⟨?_, ?_⟩
  · rw [version, emittedAt_current]
    exact h.shown.1.version_lt
  · rw [emittedAt_current, emittedAt, emit_removal]
    exact h.shown.1.gone

end Dated

end Replica

namespace Session

open AreaReplication.Core

section Blocks

variable {session : Session} {block : StateBlock}

/-- After the updates of a block, an object that one of them concerns has the number of the block's
zone, and every other one is as it was. -/
theorem updates_zoneId (zoneId : UInt32) (tidy : session.core.Tidy)
    (dated : ∀ entity replica, session.object? entity = some replica →
      replica.Dated (block.time.toNat + 1)) (states : List EntityState) {entity : EntityId}
    {replica : Replica}
    (found : (states.foldlM (applyUpdate block zoneId) session).value.object? entity =
      some replica) :
    replica.Dated (block.time.toNat + 1) ∧
      if states.any fun state => state.entity = entity then replica.current.zoneId = zoneId
      else session.object? entity = some replica := by
  induction states generalizing session with
  | nil => exact ⟨dated entity replica found, found⟩
  | cons state rest ih =>
    have first := applyUpdate_object? block zoneId tidy state
    have made : ∀ id other, ((session.table.getOrNew id other).Dated (block.time.toNat + 1)) := by
      intro id other
      cases held : session.table.get? id with
      | none =>
        rw [ReplicaTable.getOrNew_of_none held]
        exact .of_new _ _ _ _
      | some old =>
        rw [ReplicaTable.getOrNew_of_some held]
        exact dated _ _ (object?_of_held tidy held)
    -- What the first update leaves of its own entity is numbered, if there is anything.
    have updated : ∀ other old, (session.applyUpdate block zoneId state).value.object? other =
        some old → old.Dated (block.time.toNat + 1) ∧
          if state.entity = other then old.current.zoneId = zoneId
          else session.object? other = some old := by
      intro other old ho
      rw [first] at ho
      split_ifs at ho ⊢ with same
      · obtain ⟨id, -, rfl⟩ := Option.map_eq_some_iff.1 ho
        exact (made id other).update _ _ _ _
      · exact ⟨dated other old ho, ho⟩
    rw [List.foldlM_cons, Noted.value_bind] at found
    obtain ⟨late, onward⟩ := ih (applyUpdate_tidy block zoneId tidy state)
      (fun other old ho => (updated other old ho).1) found
    refine ⟨late, ?_⟩
    rw [List.any_cons]
    split_ifs at onward with again
    · rw [again, Bool.or_true, if_pos rfl]
      exact onward
    · have once := (updated entity replica onward).2
      have absent : (rest.any fun state => state.entity = entity) = false := by simpa using again
      rw [absent, Bool.or_false]
      simpa using once

theorem stateChanged_zoneId (tidy : session.core.Tidy)
    (dated : ∀ entity replica, session.object? entity = some replica →
      replica.Dated (block.time.toNat + 1)) {entity : EntityId} {replica : Replica}
    (found : (session.stateChanged block).value.object? entity = some replica) :
    replica.Dated (block.time.toNat + 1) ∧ (replica.current.removed = false →
      if block.refreshes entity then replica.current.zoneId = session.blockZoneId block
      else ∃ old, session.object? entity = some old ∧ replica.current = old.current) := by
  -- The removals come last; they leave the snapshot as it is or mark it removed.
  simp only [stateChanged, Noted.value_bind, Noted.value_pure] at found
  rw [removals_object? block (updates_tidy block _ tidy _)] at found
  obtain ⟨middle, updated, rfl⟩ := Option.map_eq_some_iff.1 found
  obtain ⟨before, numbered⟩ := updates_zoneId _ tidy dated block.updates updated
  obtain ⟨after, current⟩ := before.removals block.zone
    (block.removals.filter fun other => other = entity)
  refine ⟨after, fun present => ?_⟩
  have same := current.resolve_right fun removed => Bool.false_ne_true (present.symm.trans removed)
  rw [same]
  unfold StateBlock.refreshes
  split_ifs at numbered ⊢
  · exact numbered
  · exact ⟨middle, numbered, rfl⟩

end Blocks

/-- The block that the operation takes in, if it updates the entity. -/
def Turn.refreshing? (turn : Turn) (entity : EntityId) : Option StateBlock :=
  match turn.call with
  | .stateChanged block => if block.refreshes entity then some block else none
  | _ => none

def lastRefresh? (past : List Turn) (entity : EntityId) : Option StateBlock :=
  (past.filterMap fun turn => turn.refreshing? entity).getLast?

theorem lastRefresh?_append (past : List Turn) (turn : Turn) (entity : EntityId) :
    lastRefresh? (past ++ [turn]) entity =
      (turn.refreshing? entity).or (lastRefresh? past entity) := by
  rw [lastRefresh?, List.filterMap_append, List.getLast?_append, lastRefresh?]
  cases found : turn.refreshing? entity with
  | none => simp [found]
  | some block => simp [found]

theorem lastRefresh?_called {past : List Turn} {entity : EntityId} {block : StateBlock}
    (last : lastRefresh? past entity = some block) :
    ∃ turn ∈ past, turn.call = .stateChanged block := by
  obtain ⟨turn, ht, refreshing⟩ := List.mem_filterMap.1 (List.mem_of_getLast? last)
  refine ⟨turn, ht, ?_⟩
  obtain ⟨link, before, call⟩ := turn
  cases call with
  | stateChanged other =>
    obtain ⟨-, same⟩ := Option.ite_none_right_eq_some.1 refreshing
    exact congrArg Call.stateChanged (Option.some.inj same)
  | _ => cases refreshing

/-- The number of an object that was updated since the floor of the pace is that of the zone of the
block that updated it last, in the window as it is. -/
structure Readable (window : Window) (pace : Pace) (past : List Turn) (session : Session) :
    Prop where
  grid : session.window.grid = window.grid
  radius : session.window.radius = window.radius
  dated : ∀ entity replica, session.object? entity = some replica → replica.Dated pace.ceiling
  zoneId : ∀ entity replica, session.object? entity = some replica →
    replica.current.removed = false → pace.floor ≤ replica.version.toNat →
    ∃ block, lastRefresh? past entity = some block ∧
      replica.current.zoneId = session.blockZoneId block

/-- What is known in the course of the end of the tick at `time` of the objects, which `before`
holds as they were, and of the states that have been queued. -/
structure Showing (before : ReplicaTable) (time : Time) (events : List Event) (core : Core) :
    Prop where
  dated : ∀ id replica, core.table.get? id = some replica → replica.Dated (time.toNat + 1)
  kept : ∀ id replica, core.table.get? id = some replica → replica.current.removed = false →
    ∃ old, before.get? id = some old ∧ old.entity = replica.entity ∧ old.current = replica.current
  shown : ∀ message entity snapshot state, .queued message entity snapshot state ∈ events →
    state.removed = false → snapshot.removed = false ∧ snapshot.version = time ∧
      ∃ old, before.get? state.netId = some old ∧ old.entity = entity ∧ old.current = snapshot

namespace Showing

variable {before : ReplicaTable} {time : Time} {events es : List Event} {core next : Core}
  {link : Link} {acked : List MessageId}

/-- A step that queues nothing and leaves the snapshots of the objects alone. -/
theorem quiet (h : Showing before time events core)
    (queues : ∀ message entity snapshot state, .queued message entity snapshot state ∉ es)
    (objects : ∀ id replica, next.table.get? id = some replica → ∃ old,
      core.table.get? id = some old ∧ old.entity = replica.entity ∧
        old.current = replica.current ∧ old.removal = replica.removal) :
    Showing before time (events ++ es) next := by
  refine ⟨fun id replica held => ?_, fun id replica held present => ?_, ?_⟩
  · obtain ⟨old, ho, -, current, removal⟩ := objects id replica held
    obtain ⟨version, gone⟩ := h.dated id old ho
    rw [Replica.version, current] at version
    rw [removal, current] at gone
    exact ⟨version, gone⟩
  · obtain ⟨old, ho, entity, current, -⟩ := objects id replica held
    rw [← current] at present
    obtain ⟨first, hf, owner, same⟩ := h.kept id old ho present
    exact ⟨first, hf, owner.trans entity, same.trans current⟩
  · intro message entity snapshot state hq
    rcases List.mem_append.1 hq with hq | hq
    · exact h.shown message entity snapshot state hq
    · exact absurd hq (queues message entity snapshot state)

/-- A step that shows an object. -/
theorem present (h : Showing before time events core) {replica : Replica}
    (held : core.table.get? replica.netId = some replica)
    (queues : ∀ message entity snapshot state, .queued message entity snapshot state ∈ es →
      entity = replica.entity ∧ snapshot = (replica.shownAt time).current ∧
        state = (replica.shownAt time).delta)
    (names : Names) (box : Outbox) : Showing before time (events ++ es)
      ⟨names, core.table.put (replica.emittedAt time), box⟩ := by
  have dated := h.dated _ replica held
  have first : (replica.shownAt time).current.removed = false → ∃ old,
      before.get? replica.netId = some old ∧ old.entity = replica.entity ∧
        old.current = (replica.shownAt time).current := by
    intro present
    obtain ⟨same, -⟩ := dated.shown.2 present
    rw [same] at present ⊢
    exact h.kept _ replica held present
  refine ⟨fun id other ho => ?_, fun id other ho present => ?_, ?_⟩
  · rcases ReplicaTable.get?_put_some ho with ⟨-, rfl⟩ | ⟨-, ho⟩
    · exact dated.emitted
    · exact h.dated id other ho
  · rcases ReplicaTable.get?_put_some ho with ⟨rfl, rfl⟩ | ⟨-, ho⟩
    · rw [Replica.emittedAt_current] at present ⊢
      rw [Replica.emittedAt_netId, Replica.emittedAt_entity]
      exact first present
    · exact h.kept id other ho present
  · intro message entity snapshot state hq present
    rcases List.mem_append.1 hq with hq | hq
    · exact h.shown message entity snapshot state hq present
    · obtain ⟨rfl, rfl, rfl⟩ := queues message entity snapshot state hq
      rw [Replica.delta_removed] at present
      obtain ⟨same, version⟩ := dated.shown.2 present
      obtain ⟨old, ho, owner, current⟩ := first present
      rw [Replica.shownAt_delta_netId]
      exact ⟨present, (congrArg Snapshot.version same).trans version, old, ho, owner, current⟩

theorem step (h : Showing before time events core) (tidy : core.Tidy)
    (step : Output link time acked core es next) : Showing before time (events ++ es) next := by
  have still : ∀ id replica, core.table.get? id = some replica → ∃ old,
      core.table.get? id = some old ∧ old.entity = replica.entity ∧
        old.current = replica.current ∧ old.removal = replica.removal :=
    fun id replica held => ⟨replica, held, rfl, rfl, rfl⟩
  cases step with
  | outbox step => exact h.quiet step.not_queued still
  | @settle id record box posted recorded =>
    have confirms : ReplicaTable.Confirms record.states core.table
        (core.table.commit record).value.2 :=
      (ReplicaTable.commitStates_keeps tidy.keyed tidy.ordered).2.2
    refine h.quiet (by simp) fun id replica held => ?_
    obtain ⟨old, ho, confirmed⟩ := confirms.back held
    exact ⟨old, ho, confirmed.entity.symm, confirmed.current.symm, confirmed.removal.symm⟩
  | release => exact h.quiet (by simp) still
  | present held => exact h.present held (by simp) _ _
  | queue held opened =>
    refine h.present held (fun message entity snapshot state hq => ?_) _ _
    simp only [List.mem_singleton, Event.queued.injEq] at hq
    exact ⟨hq.2.1, hq.2.2.1, hq.2.2.2⟩
  | reap held gone =>
    refine h.quiet (retire_silent _ _ _).not_queued fun id replica found => ?_
    exact still id replica (ReplicaTable.get?_erase_some found).2

end Showing

namespace Readable

variable {window : Window} {pace : Pace} {past : List Turn} {turn : Turn}

/-- An operation that leaves the window and the objects as they were. -/
theorem quiet (h : Readable window pace past turn.before) (other : pace.after turn.call = pace)
    (none : ∀ entity, turn.refreshing? entity = none)
    (objects : turn.after.names = turn.before.names ∧ turn.after.table = turn.before.table)
    (still : turn.after.window = turn.before.window) :
    Readable window (pace.after turn.call) (past ++ [turn]) turn.after := by
  have same : turn.after.object? = turn.before.object? := by
    funext entity
    rw [object?, object?, objects.1, objects.2]
  rw [other]
  refine ⟨?_, ?_, ?_, fun entity replica found present recent => ?_⟩
  · rw [still]
    exact h.grid
  · rw [still]
    exact h.radius
  · rw [same]
    exact h.dated
  · rw [same] at found
    obtain ⟨block, last, number⟩ := h.zoneId entity replica found present recent
    refine ⟨block, ?_, ?_⟩
    · rw [lastRefresh?_append, none entity, Option.none_or]
      exact last
    · rw [blockZoneId, still]
      exact number

/-- A block numbers the objects that it updates. -/
theorem block (h : Readable window pace past turn.before) (tidy : turn.before.core.Tidy)
    {block : StateBlock} (called : turn.call = .stateChanged block)
    (allowed : pace.Admits block.time) :
    Readable window (pace.after turn.call) (past ++ [turn]) turn.after := by
  obtain ⟨link, session, call⟩ := turn
  obtain rfl : call = .stateChanged block := called
  obtain ⟨_, _, frame⟩ := session.stateChanged_frame block
  have still : (session.stateChanged block).value.window = session.window := by rw [frame]
  have dated : ∀ entity replica, session.object? entity = some replica →
      replica.Dated (block.time.toNat + 1) :=
    fun entity replica found => (h.dated entity replica found).mono allowed.ceiling_le
  refine ⟨?_, ?_, fun entity replica found => (stateChanged_zoneId tidy dated found).1, ?_⟩
  · exact (congrArg Window.grid still).trans h.grid
  · exact (congrArg Window.radius still).trans h.radius
  · intro entity replica found present recent
    have same : ∀ other, (session.stateChanged block).value.blockZoneId other =
        session.blockZoneId other := by
      intro other
      rw [blockZoneId, blockZoneId, still]
    have number := (stateChanged_zoneId tidy dated found).2 present
    have refreshing : Turn.refreshing? ⟨link, session, .stateChanged block⟩ entity =
        if block.refreshes entity then some block else none := rfl
    rw [lastRefresh?_append, refreshing]
    split_ifs at number ⊢
    · exact ⟨block, rfl, number.trans (same block).symm⟩
    · obtain ⟨old, before, current⟩ := number
      rw [Replica.version, current] at recent
      rw [current] at present ⊢
      obtain ⟨last, refreshed, numbered⟩ := h.zoneId entity old before present recent
      exact ⟨last, refreshed, numbered.trans (same last).symm⟩

/-- What the end of a tick shows is what the objects were before it. -/
theorem showing (h : Readable window pace past turn.before) (tidy : turn.before.core.Tidy)
    {time : Time} (called : turn.call = .endFrame time) (allowed : pace.Admits time) :
    turn.after.core.Tidy ∧ Showing turn.before.table time turn.events turn.after.core := by
  obtain ⟨link, session, call⟩ := turn
  obtain rfl : call = .endFrame time := called
  have start : Showing session.table time [] session.core := by
    refine ⟨fun id replica held => ?_, fun id replica held _ => ⟨replica, held, rfl, rfl⟩, by simp⟩
    exact (h.dated _ replica (object?_of_held tidy held)).mono allowed.ceiling_le
  exact (endFrame_path link time session tidy).keeps
    (P := fun events core => core.Tidy ∧ Showing session.table time events core)
    (fun _ _ _ _ kept step => ⟨step.tidy kept.1, kept.2.step kept.1 step⟩) [] ⟨tidy, start⟩

/-- No object is as new as the ticks to come, so the window may move. -/
theorem ended (h : Readable window pace past turn.before) (tidy : turn.before.core.Tidy)
    {time : Time} (called : turn.call = .endFrame time) (allowed : pace.Admits time) :
    Readable window (pace.after turn.call) (past ++ [turn]) turn.after := by
  obtain ⟨tidied, showing⟩ := h.showing tidy called allowed
  obtain ⟨link, session, call⟩ := turn
  obtain rfl : call = .endFrame time := called
  have dated : ∀ entity replica,
      (session.endFrame link time).value.2.object? entity = some replica →
      replica.Dated (time.toNat + 1) :=
    fun entity replica found => showing.dated _ replica ((object?_eq_some tidied).1 found).1
  have still := session.endFrame_still link time
  refine ⟨still.grid.trans h.grid, still.radius.trans h.radius, dated, ?_⟩
  -- The floor is past this tick now, and no object is that new.
  intro entity replica found _ recent
  exact absurd (dated entity replica found).version_lt (Nat.not_lt.2 recent)

theorem step (h : Readable window pace past turn.before) (tidy : turn.before.core.Tidy)
    (allowed : pace.Allows turn.call) :
    Readable window (pace.after turn.call) (past ++ [turn]) turn.after := by
  obtain ⟨link, session, call⟩ := turn
  cases call with
  | stateChanged block => exact h.block tidy rfl allowed
  | endFrame time => exact h.ended tidy rfl allowed
  | beginFrame =>
    obtain ⟨_, _, _, begun⟩ := session.beginFrame_frame
    have after : Turn.after ⟨link, session, .beginFrame⟩ = _ := begun
    exact h.quiet rfl (fun _ => rfl) (by rw [after]; exact ⟨rfl, rfl⟩) (by rw [after])
  | _ => exact h.quiet rfl (fun _ => rfl) ⟨rfl, rfl⟩ rfl

theorem of_new (grid : Grid) (settings : Settings) :
    Readable { grid, radius := settings.zoneRadius } {} [] (new grid settings) := by
  refine ⟨rfl, rfl, fun entity replica found => ?_, fun entity replica found => ?_⟩
  all_goals
    have held := ((object?_eq_some (new_tidy grid settings)).1 found).1
    exact absurd held (ReplicaTable.get?_empty _ _ _)

theorem number (h : Readable window pace past turn.before) (small : window.size < UInt32.size)
    (block : StateBlock) : (turn.before.blockZoneId block).toNat =
      window.number turn.before.window.center block.zone := by
  obtain ⟨grid, radius, -, -⟩ := h
  unfold blockZoneId
  generalize turn.before.window = current at grid radius ⊢
  obtain ⟨_, _, center⟩ := current
  obtain ⟨_, _, _⟩ := window
  obtain rfl := grid
  obtain rfl := radius
  exact Window.zoneId_number _ block.zone small

end Readable

/-- Only the end of a tick queues states. -/
theorem Turn.endsTick_of_queued {turn : Turn} (tidy : turn.before.core.Tidy) {message : MessageId}
    {entity : EntityId} {shown : Snapshot} {state : Delta}
    (queued : .queued message entity shown state ∈ turn.events) :
    ∃ time, turn.call = .endFrame time := by
  obtain ⟨link, session, call⟩ := turn
  have quiet : (∀ acked events core es next, core.Tidy →
      .queued message entity shown state ∉ events → call.Step link acked core es next →
      .queued message entity shown state ∉ events ++ es) →
      .queued message entity shown state ∉ (session.run link call).events := fun keeps =>
    (run_keeps (P := fun events _ => .queued message entity shown state ∉ events) call []
      (keeps _) tidy List.not_mem_nil).2
  cases call with
  | endFrame time => exact ⟨time, rfl⟩
  | stateChanged block =>
    refine absurd queued (quiet fun acked events core es next tidy before step after => ?_)
    rcases List.mem_append.1 after with after | after
    · exact before after
    · exact (Input.silent step tidy).not_queued _ _ _ _ after
  | _ =>
    refine absurd queued (quiet fun acked events core es next tidy before step after => ?_)
    obtain ⟨box, step, -⟩ := step
    rcases List.mem_append.1 after with after | after
    · exact before after
    · exact step.not_queued _ _ _ _ after

/-- The entity has an object with the id of the state, shown as it is, and the number of its zone is
that of the zone of the block that last updated it, counted in the window around `center`. -/
structure Numbered (window : Window) (center : Option Zone) (earlier : List Turn)
    (session : Session) (entity : EntityId) (shown : Snapshot) (state : Delta) : Prop where
  object : ∃ replica, session.object? entity = some replica ∧ replica.netId = state.netId ∧
    replica.current = shown
  number : ∃ block, lastRefresh? earlier entity = some block ∧
    shown.zoneId.toNat = window.number center block.zone

theorem Readable.numbered {window : Window} {pace : Pace} {past : List Turn} {turn : Turn}
    (h : Readable window pace past turn.before) (small : window.size < UInt32.size)
    (tidy : turn.before.core.Tidy) (allowed : pace.Allows turn.call) {message : MessageId}
    {entity : EntityId} {shown : Snapshot} {state : Delta}
    (queued : .queued message entity shown state ∈ turn.events) (present : state.removed = false) :
    Numbered window turn.before.window.center past turn.before entity shown state := by
  obtain ⟨time, ended⟩ := turn.endsTick_of_queued tidy queued
  rw [ended] at allowed
  obtain ⟨-, showing⟩ := h.showing tidy ended allowed
  obtain ⟨present, version, replica, held, rfl, rfl⟩ := showing.shown _ _ _ _ queued present
  have found := object?_of_held tidy held
  have recent : pace.floor ≤ replica.version.toNat := by
    rw [Replica.version, version]
    exact allowed.1
  obtain ⟨block, last, number⟩ := h.zoneId _ replica found present recent
  refine ⟨⟨replica, found, tidy.keyed _ replica held, rfl⟩, block, last, ?_⟩
  rw [number]
  exact h.number small block

/-- In a run at a pace, whatever fails, every state that shows an object as present stands for an
object whose zone number counts the zone of the block that last updated it, in the window around
the center at that time; and this is the center that the frame of the state names in any message
that holds it, be it sent or being filled. -/
theorem zone_numbers_readable (grid : Grid) (settings : Settings) (calls : List (Link × Call))
    (paced : Pace.Paced {} calls)
    (small : Window.size { grid, radius := settings.zoneRadius } < UInt32.size) :
    let window : Window := { grid, radius := settings.zoneRadius }
    let run := turns calls (new grid settings)
    let last := play calls (new grid settings)
    (∀ earlier turn later message entity shown state, run = earlier ++ turn :: later →
      .queued message entity shown state ∈ turn.events → state.removed = false →
      Numbered window turn.before.window.center earlier turn.before entity shown state) ∧
    ∀ message, (message ∈ messagesSent last.events ∨
        ∃ link, message = last.value.outbox.pendingMessage link) →
      ∀ frame ∈ message.frames, ∀ state ∈ frame.states, state.removed = false →
      ∃ earlier turn later entity shown, run = earlier ++ turn :: later ∧
        turn.call = .endFrame frame.time ∧ turn.before.window.center = frame.center ∧
        .queued message.id entity shown state ∈ turn.events ∧
        Numbered window frame.center earlier turn.before entity shown state := by
  intro window run last
  have at_queued : ∀ earlier turn later message entity shown state,
      run = earlier ++ turn :: later → .queued message entity shown state ∈ turn.events →
      state.removed = false →
      Numbered window turn.before.window.center earlier turn.before entity shown state := by
    intro earlier turn later message entity shown state split queued present
    obtain ⟨now, left, tidy, allowed, readable, -⟩ := Pace.Paced.split (Q := fun _ => True)
      (fun _ _ _ tidy allowed _ h => h.step tidy allowed) paced (fun _ _ => trivial)
      (new_tidy grid settings) (Readable.of_new grid settings) split
    exact readable.numbered small tidy allowed queued present
  refine ⟨at_queued, fun message known frame hf state hs present => ?_⟩
  have headed := turns_headed grid settings calls
  have placed : ⟨some (frame.time, frame.center), state⟩ ∈ message.placed :=
    List.mem_flatMap_of_mem hf (List.mem_map_of_mem hs)
  have source : Originates run message.id ⟨some (frame.time, frame.center), state⟩ := by
    rcases known with sent | ⟨link, rfl⟩
    · rw [play_events] at sent
      exact headed.sent message sent _ placed
    · rw [Outbox.pendingMessage_placed] at placed
      exact headed.filled _ placed
  obtain ⟨turn, ht, ⟨time, ended, header⟩, entity, shown, queued⟩ := source
  obtain ⟨rfl, center⟩ := Prod.mk.inj (Option.some.inj header)
  obtain ⟨earlier, later, split⟩ := List.append_of_mem ht
  have numbered := at_queued earlier turn later _ entity shown state split queued present
  rw [← center] at numbered
  exact ⟨earlier, turn, later, entity, shown, split, ended, center.symm, queued, numbered⟩

section Sighting

def unitGrid : Grid := ⟨⟨.one, .one, .one⟩⟩

/-- Entity 7 is seen at the origin in tick 2. -/
def homeBlock : StateBlock where
  time := 2
  zone := unitGrid.zoneAt .zero
  updates := [{ entity := 7, position := .zero }]

/-- The client's own entity 7 stands at the origin, so that the window is centered there. -/
def arrived : List (Link × Call) := undisturbed [.setSelf 7 .zero, .endFrame 1, .endBlock]

/-- Then the entity is seen, and the message that shows it is sent. -/
def sighting : List (Link × Call) :=
  arrived ++ undisturbed [.stateChanged homeBlock, .endFrame 2, .endBlock]

def sighted : Session := ((play arrived (new unitGrid {})).value.stateChanged homeBlock).value

-- Where the origin lies is worked out on doubles, which no proof can see through. So the session is
-- not evaluated here, but told from the one before the block.
theorem sighted_eq : ∃ names replica position,
    sighted = { (play arrived (new unitGrid {})).value with
      names, selfPosition := position
      table := ReplicaTable.put { historyCapacity := 32 } replica } ∧
    (replica.shownAt 2).delta.removed = false := by
  obtain ⟨names, table, frame⟩ :=
    (play arrived (new unitGrid {})).value.stateChanged_frame homeBlock
  have held := (play arrived (new unitGrid {})).value.applyUpdate_table homeBlock
    ((play arrived (new unitGrid {})).value.blockZoneId homeBlock)
    { entity := 7, position := .zero }
  have named : ((play arrived (new unitGrid {})).value.names.assign 7).value.1 = some 1 := by
    have unused : (play arrived (new unitGrid {})).value.names = { next := 1 } := by rfl
    rw [unused]
    decide_cbv
  rw [named] at held
  obtain rfl : table = _ := (congrArg Session.table frame).symm.trans held
  exact ⟨names, _, _, frame, rfl⟩

theorem sighted_sends : ∃ message packet state,
    .sent message packet ∈
      ((sighted.endFrame (Line.link {}) 2).value.2.endBlock (Line.link {})).events ∧
    message.frames =
      [{ time := 2, center := some (unitGrid.zoneAt .zero), states := [state] }] ∧
    state.removed = false := by
  obtain ⟨names, replica, position, found, present⟩ := sighted_eq
  have objects : sighted.acked.table.toList = [replica] := by
    rw [found]
    rfl
  have echoes : sighted.acked.outbox.toEcho = [] := by
    rw [found]
    rfl
  have center : sighted.window.center = some (unitGrid.zoneAt .zero) := by
    rw [found]
    rfl
  have empty : sighted.acked.outbox.frames = [] := by
    rw [found]
    rfl
  have room : sighted.acked.outbox.freshBits + frameHeaderBits 2 sighted.window.center +
      (sighted.acked.table.toList.map fun replica => (replica.shownAt 2).delta.bitCount).sum ≤
        sighted.acked.outbox.bitLimit := by
    have limit : sighted.acked.outbox.bitLimit = 12000 := by
      rw [found]
      rfl
    have fresh := sighted.acked.outbox.freshBits_le (by rw [echoes]; exact Nat.zero_le _)
    have header := frameHeaderBits_le 2 sighted.window.center
    have state := (replica.shownAt 2).delta.bitCount_le
    rw [limit, objects, List.map_singleton, List.sum_singleton]
    omega
  have one : 1 < Message.countBound := by decide
  obtain ⟨message, packet, sent, frames⟩ := endBlock_of_room (Line.link {}) empty room
    (by rw [echoes]; decide) (by rw [objects]; exact one) rfl
  rw [center, objects] at frames
  exact ⟨message, packet, _, sent, frames, present⟩

/-- The message names the center of the window, which is the fourteenth of its 27 zones. -/
theorem zone_numbers_readable_sighting :
    ∃ message ∈ messagesSent (play sighting (new unitGrid {})).events,
      ∃ frame ∈ message.frames, frame.center = some (unitGrid.zoneAt .zero) ∧
        ∃ state ∈ frame.states, state.removed = false ∧
          ∃ turn : Turn, turn.call = .endFrame frame.time ∧ ∃ entity shown,
            .queued message.id entity shown state ∈ turn.events ∧ shown.zoneId = 14 := by
  have paced : Pace.Paced {} sighting := by
    simp [sighting, arrived, undisturbed, homeBlock, Pace.Paced, Pace.Allows, Pace.Admits,
      Pace.after]
  obtain ⟨-, readable⟩ := zone_numbers_readable unitGrid {} sighting paced (by decide)
  obtain ⟨message, packet, state, sent, frames, present⟩ := sighted_sends
  have ending : turns sighting (new unitGrid {}) =
      turns (arrived ++ undisturbed [.stateChanged homeBlock]) (new unitGrid {}) ++
        [⟨Line.link {}, sighted, .endFrame 2⟩,
          ⟨Line.link {}, (sighted.endFrame (Line.link {}) 2).value.2, .endBlock⟩] := rfl
  have taken : message ∈ messagesSent (play sighting (new unitGrid {})).events := by
    rw [play_events, ending, mem_messagesSent]
    exact ⟨packet,
      List.mem_flatMap_of_mem (List.mem_append_right _ (List.mem_cons_of_mem _ (.head _))) sent⟩
  have framed : ⟨2, some (unitGrid.zoneAt .zero), [state]⟩ ∈ message.frames := by
    rw [frames]
    exact List.mem_cons_self
  obtain ⟨earlier, turn, later, entity, shown, split, ended, -, queued, -, block, last, number⟩ :=
    readable message (.inl taken) _ framed state List.mem_cons_self present
  obtain rfl : block = homeBlock := by
    obtain ⟨other, ho, called⟩ := lastRefresh?_called last
    have listed : other.call ∈ (turns sighting (new unitGrid {})).map Turn.call := by
      rw [split]
      exact List.mem_map_of_mem (List.mem_append_left _ ho)
    have calls : (turns sighting (new unitGrid {})).map Turn.call = sighting.map Prod.snd := rfl
    rw [calls, called] at listed
    simpa [sighting, arrived, undisturbed] using listed
  refine ⟨message, taken, _, framed, rfl, state, List.mem_cons_self, present, turn, ended, entity,
    shown, queued, UInt32.toNat_inj.1 ?_⟩
  rw [number]
  exact Window.number_center _ _

end Sighting

end Session

end AreaReplication
