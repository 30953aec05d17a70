import AreaReplication.Proofs.AckOrder
import AreaReplication.Proofs.OutboxRun
import AreaReplication.Proofs.Removal

/-!
# The end of a tick in its parts

The end of a tick works off the acknowledgments and frees the ids that have become settled. Then it
opens a frame and sweeps over the objects, and if that goes well, drops those that are gone.
-/
namespace AreaReplication.Session

open AreaReplication.Core

variable (link : Link) (session : Session) (time : Time)

/-- The sweep over the objects at the end of a tick; without a frame there is none. -/
def sweep : Noted (Except SendError Unit × Projection.Walk) := do
  let start : Projection.Walk := { table := session.acked.table, box := session.acked.outbox }
  let (started, box) ← start.box.startFrame link time session.window.center
  match started with
  | .error error => return (.error error, { start with box })
  | .ok () => Projection.walk link time start.table.toList { start with box }

def namesAtSweep : Names := (session.names.release session.acked.outbox.settledBefore).2

/-- The end of a tick, given what the sweep comes to. -/
inductive Swept : Except SendError Unit × Projection.Walk → Except SendError Unit × Session → Prop
  | broken {error : SendError} {walked : Projection.Walk} {after : Session}
      (core : after.core = ⟨session.namesAtSweep, walked.table, walked.box⟩) :
      Swept (.error error, walked) (.error error, after)
  | finished {walked : Projection.Walk} {after : Session}
      (emitted : after.stats.statesEmitted = walked.emitted)
      (core : after.core =
        let reaped := Projection.reap walked.box.nextId walked.complete.reverse walked.table
          session.namesAtSweep
        ⟨reaped.value.2, reaped.value.1, walked.box⟩) :
      Swept (.ok (), walked) (.ok (), after)

theorem endFrame_swept :
    session.Swept (session.sweep link time).value (session.endFrame link time).value := by
  simp only [endFrame, sweep, acked, Intake.drain, Noted.value_bind, Noted.value_pure]
  generalize drained : Intake.settleAll session.intake.queue session.intake.ping session.outbox
    session.table = result
  obtain ⟨⟨acks, ping, box, table⟩, drainEvents⟩ := result
  dsimp only
  have names : session.namesAtSweep = (session.names.release box.settledBefore).2 := by
    simp only [namesAtSweep, acked, drained]
  generalize box.startFrame link time session.window.center = start
  obtain ⟨⟨outcome, opened⟩, startEvents⟩ := start
  cases outcome with
  | error error => exact .broken (by rw [names]; rfl)
  | ok =>
    simp only [Projection.project, Noted.value_bind]
    generalize Projection.walk link time table.toList { table, box := opened } = walk
    obtain ⟨⟨outcome, walked⟩, walkEvents⟩ := walk
    cases outcome with
    | error error => exact .broken (by rw [names]; rfl)
    | ok =>
      refine .finished rfl ?_
      rw [names]
      exact recenter_core _

theorem sweepStart_path : ∃ events, Path (Output link time (session.intake.queue.map Ack.id))
    session.core events ⟨session.namesAtSweep, session.acked.table, session.acked.outbox⟩ := by
  have worked := settleAll_path link time (session.intake.queue.map Ack.id) session.names
    session.intake.queue (fun ack ha => List.mem_map_of_mem ha) session.intake.ping session.table
    session.outbox
  exact ⟨_, worked.tail (.release _)⟩

/-- The sweep is a path on which no id is given back, and a sweep that reaches its end has visited
every object. -/
theorem sweep_path (tidy : session.core.Tidy) :
    let walked := (session.sweep link time).value.2
    (∃ events, Path (Output link time (session.intake.queue.map Ack.id)) session.core events
      ⟨session.namesAtSweep, walked.table, walked.box⟩) ∧
      ((session.sweep link time).value.1 = .ok () → walked.Ahead []) := by
  obtain ⟨events, path⟩ := session.sweepStart_path link time
  have keyed := (tidy_of_path path tidy).keyed
  have opened := path.trans (outbox_path link time _ session.namesAtSweep session.acked.table
    (session.acked.outbox.startFrame_path link time session.window.center))
  simp only [sweep, Noted.value_bind]
  generalize session.acked.outbox.startFrame link time session.window.center = start at opened ⊢
  obtain ⟨⟨outcome, box⟩, startEvents⟩ := start
  cases outcome with
  | error error => exact ⟨⟨_, opened⟩, nofun⟩
  | ok =>
    obtain ⟨walk, ahead⟩ := walk_path link time (session.intake.queue.map Ack.id)
      session.namesAtSweep _ _ (.start keyed box)
    exact ⟨⟨_, opened.trans walk⟩, ahead⟩

end AreaReplication.Session

namespace AreaReplication

def Event.state? : Event → Option Delta
  | .queued _ _ _ state => some state
  | _ => none

def statesQueued (events : List Event) : List Delta := events.filterMap Event.state?

@[simp] theorem statesQueued_append (es fs : List Event) :
    statesQueued (es ++ fs) = statesQueued es ++ statesQueued fs :=
  List.filterMap_append

theorem statesQueued_eq_nil {events : List Event} (h : ∀ message entity shown state,
    .queued message entity shown state ∉ events) : statesQueued events = [] := by
  refine List.filterMap_eq_nil_iff.2 fun event he => ?_
  cases event with
  | queued message entity shown state => exact absurd he (h message entity shown state)
  | _ => rfl

theorem Silent.statesQueued {events : List Event} (h : Silent events) :
    AreaReplication.statesQueued events = [] :=
  statesQueued_eq_nil h.not_queued

theorem Outbox.statesQueued_path {link : Link} {box next : Outbox} {events : List Event}
    (path : Path (Step link) box events next) : statesQueued events = [] := by
  refine path.keeps (P := fun events _ => statesQueued events = []) ?_ [] rfl
  intro events box es next none step
  rw [statesQueued_append, none, statesQueued_eq_nil step.not_queued, List.append_nil]

namespace Projection

variable (link : Link) (now : Time)

/-- A visit that succeeds has queued the state of the object and counts it. -/
theorem visit_ok {walked : Walk} {replica : Replica}
    (ok : (visit link now walked replica).value.1 = .ok ()) :
    statesQueued (visit link now walked replica).events = [(replica.shownAt now).delta] ∧
      (visit link now walked replica).value.2.emitted = walked.emitted + 1 ∧
      (visit link now walked replica).value.2.complete =
        if (replica.emittedAt now).removal = .complete then replica.netId :: walked.complete
        else walked.complete := by
  have readied : statesQueued (ready now replica).events = [] := by
    simp only [ready, Noted.events_bind, noteIf]
    split_ifs <;> rfl
  have emitted : statesQueued ((replica.shownAt now).emit now).events = [] := by
    simp only [Replica.emit, Noted.events_bind, Noted.events_pure, List.append_nil]
    unfold Replica.recordCurrent
    split_ifs
    · rfl
    · split <;> rfl
  have shown : (ready now replica).value.2 = replica.shownAt now := rfl
  have after : ((replica.shownAt now).emit now).value.2 = replica.emittedAt now := rfl
  obtain ⟨before, path, outcome⟩ := walked.box.addState_path link (replica.shownAt now).delta
  simp only [visit, Noted.events_bind, Noted.value_bind, Replica.emit_state, shown, after,
    statesQueued_append, readied, emitted, Outbox.statesQueued_path path, List.nil_append] at ok ⊢
  rcases outcome with ⟨added, -⟩ | ⟨error, failed⟩
  · simp only [added, Noted.value_bind, Noted.value_pure, Noted.events_bind, note]
    refine ⟨rfl, trivial, ?_⟩
    rw [Replica.emittedAt_netId]
  · simp only [failed] at ok
    cases ok

/-- A walk that comes to its end has queued the state of every object, in order. -/
theorem walk_ok {replicas : List Replica} {walked : Walk}
    (ok : (walk link now replicas walked).value.1 = .ok ()) :
    statesQueued (walk link now replicas walked).events =
        replicas.map (fun replica => (replica.shownAt now).delta) ∧
      (walk link now replicas walked).value.2.emitted = walked.emitted + replicas.length ∧
      (walk link now replicas walked).value.2.complete =
        ((replicas.filter fun replica => (replica.emittedAt now).removal = .complete).map
          Replica.netId).reverse ++ walked.complete := by
  induction replicas generalizing walked with
  | nil => exact ⟨rfl, rfl, rfl⟩
  | cons replica rest ih =>
    simp only [walk, Noted.value_bind, Noted.events_bind] at ok ⊢
    cases outcome : (visit link now walked replica).value.1 with
    | error error =>
      rw [outcome] at ok
      cases ok
    | ok =>
      simp only [outcome] at ok ⊢
      obtain ⟨state, counted, listed⟩ := visit_ok link now outcome
      obtain ⟨states, emitted, complete⟩ := ih ok
      refine ⟨?_, ?_, ?_⟩
      · rw [statesQueued_append, state, states]
        rfl
      · rw [emitted, counted, List.length_cons]
        omega
      · rw [complete, listed, List.filter_cons]
        by_cases gone : (replica.emittedAt now).removal = .complete
        · simp [gone]
        · simp [gone]

/-- A visit whose state fits adds it to the open frame. -/
theorem visit_of_fits {walked : Walk} {replica : Replica} (opened : walked.box.frames ≠ [])
    (fits : walked.box.pendingBits + (replica.shownAt now).delta.bitCount ≤
      walked.box.bitLimit) :
    (visit link now walked replica).value.1 = .ok () ∧
      (visit link now walked replica).value.2.box =
        walked.box.appendState (replica.shownAt now).delta := by
  have added := walked.box.addState_of_fits link opened fits
  have shown : (ready now replica).value.2 = replica.shownAt now := rfl
  simp only [visit, Noted.value_bind, Replica.emit_state, shown, added]
  exact ⟨rfl, rfl⟩

/-- While there is room for all that are left, no visit can fail. -/
theorem walk_of_room {replicas : List Replica} {walked : Walk} (opened : walked.box.frames ≠ [])
    (room : walked.box.pendingBits +
      (replicas.map fun replica => (replica.shownAt now).delta.bitCount).sum ≤
        walked.box.bitLimit) :
    (walk link now replicas walked).value.1 = .ok () ∧
      (walk link now replicas walked).value.2.box =
        (replicas.map fun replica => (replica.shownAt now).delta).foldl Outbox.appendState
          walked.box := by
  induction replicas generalizing walked with
  | nil => exact ⟨rfl, rfl⟩
  | cons replica rest ih =>
    rw [List.map_cons, List.sum_cons, ← Nat.add_assoc] at room
    obtain ⟨ok, next⟩ := visit_of_fits link now opened (Nat.le_trans (Nat.le_add_right _ _) room)
    simp only [walk, Noted.value_bind, ok, List.map_cons, List.foldl_cons, ← next]
    refine ih ?_ ?_
    · rw [next]
      simpa [Outbox.appendState] using opened
    · rw [next]
      exact room

theorem reap_silent (watermark : MessageId) (ids : List NetId) (table : ReplicaTable)
    (names : Names) : Silent (reap watermark ids table names).events := by
  induction ids generalizing table names with
  | nil => exact silent_nil
  | cons id rest ih =>
    intro event he
    cases found : table.get? id with
    | none =>
      simp only [reap, found, Noted.events_bind, List.mem_append] at he
      rcases he with he | he
      · exact Core.retire_silent names id watermark event he
      · exact ih _ _ event he
    | some replica =>
      simp only [reap, found, note, Noted.events_bind, List.mem_append, List.mem_singleton] at he
      rcases he with rfl | he | he
      · rfl
      · exact Core.retire_silent names id watermark event he
      · exact ih _ _ event he

/-- The ids of dropped objects go into quarantine. -/
theorem reap_quarantines (watermark : MessageId) {ids : List NetId} {table : ReplicaTable}
    {names : Names} (once : ids.Nodup) (used : ∀ id ∈ ids, (names.entityOf? id).isSome)
    {id : NetId} (h : id ∈ ids ∨ names.Quarantined id) :
    (reap watermark ids table names).value.2.Quarantined id := by
  induction ids generalizing table names with
  | nil => exact h.resolve_left nofun
  | cons first rest ih =>
    obtain ⟨fresh, once⟩ := List.nodup_cons.1 once
    obtain ⟨entity, owned⟩ := Option.isSome_iff_exists.1 (used first List.mem_cons_self)
    have others : ∀ other ∈ rest,
        ((names.retire first watermark).value.entityOf? other).isSome := by
      intro other ho
      have apart : first ≠ other := fun same => fresh (same ▸ ho)
      rw [Names.retire_entityOf?, if_neg apart]
      exact used other (List.mem_cons_of_mem _ ho)
    have next : id ∈ rest ∨ (names.retire first watermark).value.Quarantined id := by
      rw [Names.retire_quarantined watermark owned]
      rcases h with h | h
      · exact (List.mem_cons.1 h).symm.imp_right .inl
      · exact .inr (.inr h)
    cases found : table.get? first with
    | none => simpa only [reap, found, Noted.value_bind] using ih once others next
    | some replica => simpa only [reap, found, Noted.value_bind] using ih once others next

/-- Dropping the objects that are gone is silent. -/
theorem project_events (table : ReplicaTable) (names : Names) (box : Outbox) :
    ∃ closing, Silent closing ∧ (project link now table names box).events =
      (walk link now table.toList { table, box }).events ++ closing := by
  simp only [project, Noted.events_bind]
  cases (walk link now table.toList { table, box }).value.1 with
  | error error => exact ⟨[], silent_nil, rfl⟩
  | ok =>
    simp only [Noted.events_bind, Noted.events_pure, List.append_nil]
    exact ⟨_, reap_silent _ _ _ _, rfl⟩

end Projection

theorem Intake.settle_silent (box : Outbox) (table : ReplicaTable) (acked : MessageId) :
    Silent (settle box table acked).events := by
  unfold settle
  cases box.takeRecord acked with
  | none => exact .of_remark rfl
  | some taken =>
    intro event he
    simp only [Noted.events_bind] at he
    have lost : event ∈ (table.commit taken.1).events := by
      split_ifs at he <;> simpa using he
    obtain ⟨_, _, rfl⟩ := ReplicaTable.commitStates_events lost
    rfl

theorem Intake.settleAll_silent (acks : List Ack) (ping : Ping) (box : Outbox)
    (table : ReplicaTable) : Silent (settleAll acks ping box table).events := by
  induction acks generalizing ping box table with
  | nil => exact silent_nil
  | cons ack rest ih =>
    intro event he
    simp only [settleAll, Ping.record, Noted.events_bind, Noted.events_pure, List.append_nil,
      List.mem_append] at he
    rcases he with he | he | he
    · simp only [noteIf] at he
      split_ifs at he
      · rw [List.mem_singleton.1 he]
        rfl
      · cases he
    · exact settle_silent box table ack.id event he
    · exact ih _ _ _ event he

namespace Session

open AreaReplication.Core

variable {link : Link} {session : Session} {time : Time}

/-- All that the end of a tick queues or sends comes from the sweep. -/
theorem endFrame_events (link : Link) (session : Session) (time : Time) :
    ∃ opening closing, Silent opening ∧ Silent closing ∧
      (session.endFrame link time).events =
        opening ++ (session.sweep link time).events ++ closing := by
  have settled := Intake.settleAll_silent session.intake.queue session.intake.ping session.outbox
    session.table
  simp only [endFrame, sweep, acked, Intake.drain, Noted.value_bind, Noted.value_pure,
    Noted.events_bind, Noted.events_pure, List.append_nil]
  generalize Intake.settleAll session.intake.queue session.intake.ping session.outbox session.table
    = drained at settled ⊢
  obtain ⟨⟨acks, ping, box, table⟩, drainEvents⟩ := drained
  dsimp only at settled ⊢
  generalize box.startFrame link time session.window.center = start
  obtain ⟨⟨outcome, opened⟩, startEvents⟩ := start
  cases outcome with
  | error error => exact ⟨_, [], settled, silent_nil, by simp⟩
  | ok =>
    obtain ⟨reaped, silent, projected⟩ := Projection.project_events link time table
      (session.names.release box.settledBefore).2 opened
    simp only [Noted.events_bind]
    generalize Projection.project link time table (session.names.release box.settledBefore).2 opened
      = projection at projected ⊢
    obtain ⟨⟨summary, left, names, sent⟩, events⟩ := projection
    dsimp only at projected
    cases summary with
    | error error => exact ⟨_, reaped, settled, silent, by simp [projected]⟩
    | ok summary =>
      have moved := recenter_remarks
        { session with intake := { ping }, outbox := sent, table := left, names }
      have still : Silent (recenter
          { session with intake := { ping }, outbox := sent, table := left, names }).events :=
        fun event he => Silent.of_remark (moved event he) event (List.mem_singleton_self event)
      refine ⟨_, _, settled, silent.append still, ?_⟩
      simp only [Noted.events_bind, Noted.events_pure, List.append_nil, projected,
        List.append_assoc]

theorem endFrame_statesQueued : statesQueued (session.endFrame link time).events =
    statesQueued (session.sweep link time).events := by
  obtain ⟨opening, closing, before, after, events⟩ := endFrame_events link session time
  rw [events, statesQueued_append, statesQueued_append, before.statesQueued, after.statesQueued,
    List.nil_append, List.append_nil]

/-- The versions of the object under `id` that the acknowledgments in the queue confirm. -/
def confirmed (session : Session) (id : NetId) : Version → Bool :=
  session.outbox.acknowledges session.intake.queue id

theorem acked_get? (tidy : session.core.Tidy) (id : NetId) : session.acked.table.get? id =
    (session.table.get? id).map (Replica.confirm (session.confirmed id)) :=
  (Intake.settleAll_table session.intake.queue session.intake.ping session.outbox tidy.keyed
    tidy.ordered).2 id

theorem acked_some (tidy : session.core.Tidy) {id : NetId} {replica : Replica}
    (held : session.acked.table.get? id = some replica) : ∃ old,
      session.table.get? id = some old ∧ replica = old.confirm (session.confirmed id) := by
  rw [acked_get? tidy, Option.map_eq_some_iff] at held
  obtain ⟨old, held, rfl⟩ := held
  exact ⟨old, held, rfl⟩

theorem acked_keyed (tidy : session.core.Tidy) : session.acked.table.Keyed := by
  intro id replica held
  obtain ⟨old, before, rfl⟩ := acked_some tidy held
  rw [old.confirm_rest]
  exact tidy.keyed id old before

theorem acked_keys (tidy : session.core.Tidy) :
    session.acked.table.replicas.keys = session.table.replicas.keys := by
  refine ReplicaTable.keys_eq fun id => ?_
  rw [acked_get? tidy, Option.isSome_map]

/-- A sweep that goes well is a walk over all objects that comes to its end. -/
theorem sweep_ok {walked : Projection.Walk}
    (ok : (session.sweep link time).value = (.ok (), walked)) : ∃ box,
      (Projection.walk link time session.acked.table.toList
        { table := session.acked.table, box }).value = (.ok (), walked) ∧
      statesQueued (session.sweep link time).events = statesQueued (Projection.walk link time
        session.acked.table.toList { table := session.acked.table, box }).events := by
  have opening := Outbox.statesQueued_path
    (session.acked.outbox.startFrame_path link time session.window.center)
  simp only [sweep, Noted.value_bind, Noted.events_bind, statesQueued_append] at ok ⊢
  generalize session.acked.outbox.startFrame link time session.window.center = start at ok opening ⊢
  obtain ⟨⟨outcome, box⟩, events⟩ := start
  cases outcome with
  | error error => cases ok
  | ok => exact ⟨box, ok, by rw [opening, List.nil_append]⟩

/-- What the end of a tick does if it succeeds: it shows each object as the acknowledgments leave it
and drops those whose removal it completes. -/
structure Projected (link : Link) (session : Session) (time : Time) : Prop where
  states : statesQueued (session.endFrame link time).events =
    session.acked.table.toList.map fun replica => (replica.shownAt time).delta
  emitted : (session.endFrame link time).value.2.stats.statesEmitted =
    session.acked.table.toList.length
  table : ∀ id, (session.endFrame link time).value.2.table.get? id =
    (session.acked.table.get? id).bind fun replica =>
      if (replica.emittedAt time).removal = .complete then none else some (replica.emittedAt time)
  quarantined : ∀ id replica, session.acked.table.get? id = some replica →
    (replica.emittedAt time).removal = .complete →
    (session.endFrame link time).value.2.names.Quarantined id

theorem endFrame_projected (tidy : session.core.Tidy)
    (ok : (session.endFrame link time).value.1 = .ok ()) : Projected link session time := by
  have swept := session.endFrame_swept link time
  have queued : statesQueued (session.endFrame link time).events =
      statesQueued (session.sweep link time).events := endFrame_statesQueued
  obtain ⟨⟨_, path⟩, ahead⟩ := session.sweep_path link time tidy
  have tidied := tidy_of_path path tidy
  have keyed : session.acked.table.Keyed := acked_keyed tidy
  generalize result : (session.sweep link time).value = sweep at swept ahead tidied
  generalize ended : (session.endFrame link time).value = after at swept ok
  cases swept with
  | broken => cases ok
  | @finished walked after emitted core =>
    obtain ⟨box, walk, states⟩ := sweep_ok result
    have finished : (Projection.walk link time session.acked.table.toList
        { table := session.acked.table, box }).value.1 = .ok () := by rw [walk]
    obtain ⟨shown, counted, complete⟩ := Projection.walk_ok link time finished
    have visited := Projection.walk_shows link time (ReplicaTable.toList_distinct keyed) finished
    have others := fun id => @Projection.walk_get?_of_notMem link time session.acked.table.toList
      { table := session.acked.table, box } id
    simp only [walk, Nat.zero_add, List.append_nil] at counted complete visited others
    -- The walk leaves every object as it has shown it.
    have left : ∀ id, walked.table.get? id =
        (session.acked.table.get? id).map fun replica => replica.emittedAt time := by
      intro id
      cases held : session.acked.table.get? id with
      | none =>
        rw [Option.map_none, others id, held]
        intro listed
        obtain ⟨replica, hr, rfl⟩ := List.mem_map.1 listed
        rw [(ReplicaTable.mem_toList keyed).1 hr] at held
        cases held
      | some replica =>
        obtain rfl := keyed id replica held
        exact (visited replica ((ReplicaTable.mem_toList keyed).2 held)).2
    have gone : ∀ id replica, session.acked.table.get? id = some replica →
        (id ∈ walked.complete.reverse ↔ (replica.emittedAt time).removal = .complete) := by
      intro id replica held
      obtain rfl := keyed id replica held
      have listed := (ReplicaTable.mem_toList keyed).2 held
      simp only [complete, List.reverse_reverse, List.mem_map, List.mem_filter, decide_eq_true_eq]
      constructor
      · rintro ⟨other, ⟨ho, done⟩, same⟩
        have held' := (ReplicaTable.mem_toList keyed).1 ho
        rw [same, held] at held'
        rwa [Option.some.inj held']
      · exact fun done => ⟨replica, ⟨listed, done⟩, rfl⟩
    refine ⟨queued.trans (states.trans shown), ?_, fun id => ?_, fun id replica held done => ?_⟩
    · rw [ended]
      exact emitted.trans counted
    · have table := congrArg Core.table core
      simp only [Session.core] at table
      rw [ended, table, Projection.reap_get?, left]
      cases held : session.acked.table.get? id with
      | none => simp
      | some replica => simp [gone id replica held]
    · have names := congrArg Core.names core
      simp only [Session.core] at names
      rw [ended, names]
      have visited := ahead rfl
      refine Projection.reap_quarantines _ (List.nodup_reverse.2 visited.once) (fun other ho => ?_)
        (.inl ((gone id replica held).2 done))
      obtain ⟨found, held, -⟩ := visited.complete other (List.mem_reverse.1 ho)
      have owned := tidied.tracked other found held
      rw [owned]
      rfl

section Room

variable (link) (empty : session.acked.outbox.frames = [])
  (room : session.acked.outbox.freshBits + frameHeaderBits time session.window.center +
    (session.acked.table.toList.map fun replica => (replica.shownAt time).delta.bitCount).sum ≤
      session.acked.outbox.bitLimit)

include empty room

/-- A tick whose states all fit into an empty message sends nothing, so it cannot fail. -/
theorem endFrame_of_room : (session.endFrame link time).value.1 = .ok () ∧
    (session.endFrame link time).value.2.outbox =
      (session.acked.table.toList.map fun replica => (replica.shownAt time).delta).foldl
        Outbox.appendState (session.acked.outbox.pushFrame time session.window.center) := by
  have started : (session.acked.outbox.startFrame link time session.window.center).value =
      (.ok (), session.acked.outbox.pushFrame time session.window.center) := by
    simp [Outbox.startFrame, Outbox.hasBuffered, empty]
  obtain ⟨ok, filled⟩ := @Projection.walk_of_room link time session.acked.table.toList
    { table := session.acked.table
      box := session.acked.outbox.pushFrame time session.window.center }
    (Outbox.pushFrame_frames _ _ _) (by rw [Outbox.pushFrame_of_empty empty]; exact room)
  have swept := session.endFrame_swept link time
  simp only [sweep, Noted.value_bind, started] at swept
  generalize (Projection.walk link time _ _).value = walk at swept ok filled
  generalize (session.endFrame link time).value = after at swept ⊢
  cases swept with
  | broken => cases ok
  | finished emitted core =>
    refine ⟨rfl, ?_⟩
    rw [← filled]
    exact congrArg Core.box core

/-- The message that is sent next then shows all of them in one frame. -/
theorem endBlock_of_room (echoes : session.acked.outbox.toEcho.length < Message.countBound)
    (objects : session.acked.table.toList.length < Message.countBound)
    (taken : link.refuses session.acked.outbox.nextId = none) :
    ∃ message packet,
      .sent message packet ∈ ((session.endFrame link time).value.2.endBlock link).events ∧
        message.frames = [{
          time, center := session.window.center
          states := session.acked.table.toList.map fun replica =>
            (replica.shownAt time).delta }] := by
  obtain ⟨-, filled⟩ := endFrame_of_room link empty room
  have opened := Outbox.pushFrame_of_empty empty time session.window.center
  obtain ⟨frames, number, echoed⟩ := Outbox.foldl_appendState (congrArg Outbox.frames opened)
    (session.acked.table.toList.map fun replica => (replica.shownAt time).delta)
  rw [← filled] at frames number echoed
  rw [opened] at number echoed
  generalize (session.endFrame link time).value.2 = after at frames number echoed
  have shown : (after.outbox.pendingMessage link).frames = [{
      time, center := session.window.center
      states := session.acked.table.toList.map fun replica => (replica.shownAt time).delta }] := by
    simp [Outbox.pendingMessage, frames, OpenFrame.close]
  have small : ∀ count ∈ (after.outbox.pendingMessage link).counts,
      count.2 < Message.countBound := by
    have one : 1 < Message.countBound := by decide
    have few : (after.outbox.pendingMessage link).echoed.length < Message.countBound := by
      rw [Outbox.pendingMessage, echoed]
      exact echoes
    simp [Message.counts, shown, few, one, objects]
  have filled : after.outbox.frames ≠ [] := by
    rw [frames]
    exact List.cons_ne_nil _ _
  have sent := after.outbox.flush_of_taken link filled (Message.encode_eq_ok_iff.2 ⟨small, rfl⟩)
    (by rwa [number])
  have events : (after.endBlock link).events = (after.outbox.flush link).events := by
    simp only [endBlock, Noted.events_bind, Noted.events_pure, List.append_nil]
  rw [← events] at sent
  exact ⟨_, _, sent, shown⟩

end Room

end Session

end AreaReplication
