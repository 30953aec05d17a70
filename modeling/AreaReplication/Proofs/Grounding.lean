import AreaReplication.Proofs.EchoSafety

/-!
# What states build on

If only messages that the client received are acknowledged, every baseline was carried by a received
message, and every state builds on the snapshot that was shown at its baseline's version.
-/
namespace AreaReplication

/-- A message before the one numbered `message` brought the client the object at `version`. -/
def Rests (received : List Message) (message : MessageId) (id : NetId) (version : Version) : Prop :=
  ∃ carrier ∈ received, carrier.id < message ∧
    ∃ carried ∈ carrier.states, carried.key = (id, version)

structure Grounded (received : List Message) (events : List Event) (core : Core) : Prop where
  baselines : ∀ id replica base, core.table.get? id = some replica →
    replica.baseline = some base → Rests received core.box.nextId id base.version
  buffered : ∀ state ∈ core.box.buffered, ∀ base, state.baseline = some base →
    Rests received core.box.nextId state.netId base
  sent : ∀ message ∈ messagesSent events, ∀ state ∈ message.states, ∀ base,
    state.baseline = some base → Rests received message.id state.netId base
  written : ∀ message entity shown state, .queued message entity shown state ∈ events →
    ∃ replica : Replica, replica.current = shown ∧ replica.delta = state ∧
      ∀ base, replica.baseline = some base → Shows events state.netId base

theorem Rests.mono {received more : List Message} (h : ∀ message ∈ received, message ∈ more)
    {message next : MessageId} (hle : message ≤ next) {id : NetId} {version : Version}
    (hr : Rests received message id version) : Rests more next id version := by
  obtain ⟨carrier, hc, lt, carried⟩ := hr
  exact ⟨carrier, h carrier hc, UInt64.lt_of_lt_of_le lt hle, carried⟩

namespace Grounded

variable {received : List Message} {events es : List Event} {core next : Core}

theorem arrive (h : Grounded received events core) {more : List Message}
    (hm : ∀ message ∈ received, message ∈ more) : Grounded more events core where
  baselines id replica base hr hb := (h.baselines id replica base hr hb).mono hm UInt64.le_rfl
  buffered state hs base hb := (h.buffered state hs base hb).mono hm UInt64.le_rfl
  sent message hs state hstate base hb :=
    (h.sent message hs state hstate base hb).mono hm UInt64.le_rfl
  written := h.written

/-- A step that sends and queues nothing. -/
theorem quiet (h : Grounded received events core) (silent : Silent es)
    (number : next.box.nextId = core.box.nextId)
    (baselines : ∀ id replica base, next.table.get? id = some replica →
      replica.baseline = some base → (∃ old, core.table.get? id = some old ∧
        old.baseline = some base) ∨ Rests received core.box.nextId id base.version)
    (fewer : ∀ state ∈ next.box.buffered, state ∈ core.box.buffered) :
    Grounded received (events ++ es) next where
  baselines id replica base hr hb := by
    rw [number]
    rcases baselines id replica base hr hb with ⟨old, ho, hob⟩ | hrests
    · exact h.baselines id old base ho hob
    · exact hrests
  buffered state hs := by
    rw [number]
    exact h.buffered state (fewer state hs)
  sent := by
    have same : messagesSent (events ++ es) = messagesSent events := by
      simp [silent.messagesSent]
    rw [same]
    exact h.sent
  written message entity shown state hm := by
    rcases List.mem_append.1 hm with hm | hm
    · obtain ⟨replica, hc, hd, hb⟩ := h.written message entity shown state hm
      exact ⟨replica, hc, hd, fun base hbase => Shows.append.2 (.inl (hb base hbase))⟩
    · exact absurd hm (silent.not_queued message entity shown state)

theorem box_step (h : Grounded received events core) (ledger : Ledger events core.box)
    {link : Link} {box : Outbox} (few : Few (events ++ es))
    (step : Outbox.Step link core.box es box) :
    Grounded received (events ++ es) { core with box } := by
  have kept : ∀ id replica base, core.table.get? id = some replica →
      replica.baseline = some base → (∃ old, core.table.get? id = some old ∧
        old.baseline = some base) ∨ Rests received core.box.nextId id base.version :=
    fun id replica base hr hb => .inl ⟨replica, hr, hb⟩
  cases step with
  | remark hr => exact h.quiet (.of_remark hr) rfl kept fun _ hs => hs
  | resize => exact h.quiet silent_nil rfl kept fun _ hs => hs
  | send =>
    have later := ledger.next_le few
    constructor
    · intro id replica base hr hb
      exact (h.baselines id replica base hr hb).mono (fun _ hm => hm) later
    · intro state hs
      cases hs
    · intro message hm state hs base hb
      rw [messagesSent_concat] at hm
      rcases List.mem_append.1 hm with hm | hm
      · exact h.sent message hm state hs base hb
      · obtain rfl := List.mem_singleton.1 hm
        rw [Outbox.pendingMessage_states] at hs
        exact h.buffered state hs base hb
    · intro message entity shown state hm
      rcases List.mem_append.1 hm with hm | hm
      · obtain ⟨replica, hc, hd, hb⟩ := h.written message entity shown state hm
        exact ⟨replica, hc, hd, fun base hbase => Shows.append.2 (.inl (hb base hbase))⟩
      · cases List.mem_singleton.1 hm
  | drop => exact h.quiet silent_nil rfl kept fun _ hs => by cases hs
  | push time center =>
    refine h.quiet silent_nil (Outbox.pushFrame_nextId _ _ _) kept ?_
    rw [Outbox.pushFrame_buffered]
    exact fun _ hs => hs

theorem input {now : Time} (tidy : core.Tidy) (h : Grounded received events core)
    (step : Core.Input now core es next) : Grounded received (events ++ es) next := by
  have silent := step.silent tidy
  cases step with
  | remark =>
    exact h.quiet silent rfl (fun id replica base hr hb => .inl ⟨replica, hr, hb⟩) fun _ hs => hs
  | @update entity id names _ assigned zone zoneId position rotation =>
    have follows := (core.table.getOrNew id entity).update_follows now zone zoneId position rotation
    refine h.quiet silent rfl (fun other replica base hr hb => ?_) fun _ hs => hs
    rcases ReplicaTable.get?_put_some hr with ⟨hid, rfl⟩ | ⟨_, hr⟩
    · rw [follows.netId, tidy.keyed.getOrNew] at hid
      obtain rfl := hid.symm
      have hb := follows.baseline base hb
      cases hg : core.table.get? id with
      | none =>
        rw [ReplicaTable.getOrNew_of_none hg] at hb
        cases hb
      | some old =>
        rw [ReplicaTable.getOrNew_of_some hg] at hb
        exact .inl ⟨old, rfl, hb⟩
    · exact .inl ⟨replica, hr, hb⟩
  | @removal id old held zone =>
    have follows := old.removeFrom_follows now zone
    refine h.quiet silent rfl (fun other replica base hr hb => ?_) fun _ hs => hs
    rcases ReplicaTable.get?_put_some hr with ⟨hid, rfl⟩ | ⟨_, hr⟩
    · rw [follows.netId, tidy.keyed id old held] at hid
      subst hid
      exact .inl ⟨old, held, follows.baseline base hb⟩
    · exact .inl ⟨replica, hr, hb⟩

/-- A baseline that an acknowledgment moved was carried by the received message. -/
theorem settle (tidy : core.Tidy) (ledger : Ledger events core.box)
    (inside : ∀ message ∈ received, message ∈ messagesSent events)
    (h : Grounded received events core) {id : MessageId} {record : SentRecord} {box : Outbox}
    (got : ∃ message ∈ received, message.id = id)
    (recorded : core.box.takeRecord id = some (record, box)) :
    Grounded received (events ++ []) (core.settle record box) := by
  obtain ⟨found, rfl⟩ := Outbox.takeRecord_some recorded
  obtain ⟨rfl, message, hm, hid, hstates, _⟩ := ledger.recorded id record found
  obtain ⟨carrier, hcarrier, hcid⟩ := got
  obtain rfl := ledger.sent_inj (inside carrier hcarrier) hm (hcid.trans hid.symm)
  have confirms : ReplicaTable.Confirms record.states core.table
      (core.table.commit record).value.2 :=
    (ReplicaTable.commitStates_keeps tidy.keyed tidy.ordered).2.2
  have baselines : ∀ id replica base, (core.table.commit record).value.2.get? id = some replica →
      replica.baseline = some base → (∃ old, core.table.get? id = some old ∧
        old.baseline = some base) ∨ Rests received core.box.nextId id base.version := by
    intro id replica base hr hb
    obtain ⟨old, ho, hc⟩ := confirms.back hr
    rcases hc.baseline with same | ⟨version, snapshot, hv, he, hs⟩
    · exact .inl ⟨old, ho, same ▸ hb⟩
    · obtain rfl : snapshot = base := Option.some.inj (hs.symm.trans hb)
      rw [(tidy.ordered id old ho).named _ he]
      rw [hstates] at hv
      obtain ⟨carried, hcarried, hk⟩ := List.mem_map.1 hv
      exact .inr ⟨carrier, hcarrier, ledger.sent_lt hm, carried, hcarried, hk⟩
  simp only [Core.settle]
  split_ifs
  · refine h.quiet silent_nil rfl baselines ?_
    rw [Outbox.echo_buffered]
    exact fun _ hs => hs
  · exact h.quiet silent_nil rfl baselines fun _ hs => hs

/-- Showing an object does not touch its baseline. -/
theorem emit_baseline {now : Time} {table : ReplicaTable} {old : Replica}
    (held : table.get? old.netId = some old) {id : NetId} {replica : Replica} {base : Snapshot}
    (hr : (table.put (old.emittedAt now)).get? id = some replica)
    (hb : replica.baseline = some base) :
    ∃ before, table.get? id = some before ∧ before.baseline = some base := by
  rcases ReplicaTable.get?_put_some hr with ⟨hid, rfl⟩ | ⟨_, hr⟩
  · rw [Replica.emittedAt_netId] at hid
    rw [Replica.emittedAt, Replica.emit_baseline] at hb
    exact ⟨old, hid ▸ held, (old.shownAt_follows now).baseline base hb⟩
  · exact ⟨replica, hr, hb⟩

/-- The baseline of an object came with a received message, which shows it as it is kept. -/
theorem baseline_shown {shown current : Nat} (pacing : Pacing shown current events core)
    (ledger : Ledger events core.box)
    (inside : ∀ message ∈ received, message ∈ messagesSent events)
    (h : Grounded received events core) {replica : Replica} {base : Snapshot}
    (held : core.table.get? replica.netId = some replica) (hb : replica.baseline = some base) :
    Rests received core.box.nextId replica.netId base.version ∧
      Shows events replica.netId base := by
  have rests := h.baselines _ replica base held hb
  refine ⟨rests, ?_⟩
  obtain ⟨carrier, hc, _, carried, hs, hk⟩ := rests
  obtain ⟨entity, snapshot, hq⟩ := ledger.sent_queued carrier (inside carrier hc) carried hs
  obtain ⟨hid, hversion⟩ := Prod.mk.inj hk
  have shows : Shows events replica.netId snapshot := ⟨_, _, _, hq, hid⟩
  -- The carrier's state was queued with a snapshot of its own, which is the kept one.
  have same : snapshot = base := by
    apply pacing.functional replica.netId snapshot base (.inl shows)
    · exact .inr ⟨replica, held, Replica.mem_kept.2 (.inl hb)⟩
    · rw [← pacing.dated _ _ _ _ hq]
      exact hversion
  exact same ▸ shows

theorem queue {shown current : Nat} (pacing : Pacing shown current events core)
    (ledger : Ledger events core.box)
    (inside : ∀ message ∈ received, message ∈ messagesSent events)
    (h : Grounded received events core) {replica : Replica}
    (held : core.table.get? replica.netId = some replica) (opened : core.box.frames ≠ [])
    (now : Time) (owner : EntityId) :
    Grounded received
      (events ++ [.queued core.box.nextId owner (replica.shownAt now).current
        (replica.shownAt now).delta])
      { core with
        table := core.table.put (replica.emittedAt now)
        box := core.box.appendState (replica.shownAt now).delta } := by
  have named : (replica.shownAt now).delta.netId = replica.netId :=
    replica.shownAt_delta_netId now
  have based : ∀ base, (replica.shownAt now).baseline = some base →
      Rests received core.box.nextId replica.netId base.version ∧
        Shows events replica.netId base := by
    intro base hb
    have hb := (replica.shownAt_follows now).baseline base hb
    exact h.baseline_shown pacing ledger inside held hb
  constructor
  · intro id other base hr hb
    obtain ⟨old, ho, hob⟩ := emit_baseline held hr hb
    exact h.baselines id old base ho hob
  · intro state hs base hb
    rw [Outbox.appendState_buffered opened] at hs
    rcases List.mem_append.1 hs with hs | hs
    · exact h.buffered state hs base hb
    · obtain rfl := List.mem_singleton.1 hs
      rw [Replica.delta_baseline] at hb
      obtain ⟨snapshot, hs, rfl⟩ := Option.map_eq_some_iff.1 hb
      rw [named]
      exact (based snapshot hs).1
  · intro message hm
    rw [messagesSent_append] at hm
    rcases List.mem_append.1 hm with hm | hm
    · exact h.sent message hm
    · cases hm
  · intro message entity shown state hm
    rcases List.mem_append.1 hm with hm | hm
    · obtain ⟨writer, hc, hd, hb⟩ := h.written message entity shown state hm
      exact ⟨writer, hc, hd, fun base hbase => Shows.append.2 (.inl (hb base hbase))⟩
    · cases List.mem_singleton.1 hm
      refine ⟨replica.shownAt now, rfl, rfl, fun base hb => Shows.append.2 (.inl ?_)⟩
      rw [named]
      exact (based base hb).2

theorem output {link : Link} {now : Time} {acked : List MessageId} {shown current : Nat}
    (posted : ∀ id ∈ acked, ∃ message ∈ received, message.id = id) (tidy : core.Tidy)
    (pacing : Pacing shown current events core) (ledger : Ledger events core.box)
    (inside : ∀ message ∈ received, message ∈ messagesSent events)
    (h : Grounded received events core) (few : Few (events ++ es))
    (step : Core.Output link now acked core es next) : Grounded received (events ++ es) next := by
  cases step with
  | outbox step => exact h.box_step ledger few step
  | settle hid recorded => exact h.settle tidy ledger inside (posted _ hid) recorded
  | release =>
    exact h.quiet silent_nil rfl (fun id replica base hr hb => .inl ⟨replica, hr, hb⟩)
      fun _ hs => hs
  | present held =>
    exact h.quiet silent_nil rfl (fun id replica base hr hb => .inl (emit_baseline held hr hb))
      fun _ hs => hs
  | queue held opened => exact h.queue pacing ledger inside held opened now _
  | @reap replica held gone =>
    refine h.quiet (Core.retire_silent _ _ _) rfl (fun id other base hr hb => ?_) fun _ hs => hs
    exact .inl ⟨other, (ReplicaTable.get?_erase_some hr).2, hb⟩

theorem of_new (grid : Grid) (settings : Settings) :
    Grounded [] [] (Session.new grid settings).core := by
  constructor <;>
    simp [Session.core, Session.new, Outbox.new, Outbox.buffered, ReplicaTable.get?]

end Grounded

end AreaReplication
