import AreaReplication.Proofs.Play

/-!
# What a paced run knows of an object

In a run whose ticks come in increasing order, a network id and a version name one snapshot for
good, even after the id has gone to another entity: what the client was shown of an id is never
newer than the object that has the id, and a version that was shown is not taken again.
-/
namespace AreaReplication

/-- A message was to show `snapshot` under the given network id. -/
def Shows (events : List Event) (id : NetId) (snapshot : Snapshot) : Prop :=
  ∃ message entity state, .queued message entity snapshot state ∈ events ∧ state.netId = id

/-- The snapshot was shown under the id, or its object keeps it. -/
def Known (events : List Event) (table : ReplicaTable) (id : NetId) (snapshot : Snapshot) : Prop :=
  Shows events id snapshot ∨ ∃ replica, table.get? id = some replica ∧ snapshot ∈ replica.kept

structure Pacing (shown current : Nat) (events : List Event) (core : Core) : Prop where
  known_lt : ∀ id snapshot, Known events core.table id snapshot → snapshot.version.toNat < shown
  current_lt : ∀ id replica, core.table.get? id = some replica → replica.version.toNat < current
  known_le : ∀ id replica snapshot, core.table.get? id = some replica →
    Known events core.table id snapshot → snapshot.version ≤ replica.version ∧
      (snapshot.version = replica.version → snapshot = replica.current)
  functional : ∀ id a b, Known events core.table id a → Known events core.table id b →
    a.version = b.version → a = b
  dated : ∀ message entity snapshot state, .queued message entity snapshot state ∈ events →
    state.version = snapshot.version

theorem Shows.append {events es : List Event} {id : NetId} {snapshot : Snapshot} :
    Shows (events ++ es) id snapshot ↔ Shows events id snapshot ∨ Shows es id snapshot := by
  constructor
  · rintro ⟨message, entity, state, hm, hid⟩
    rcases List.mem_append.1 hm with hm | hm
    · exact .inl ⟨message, entity, state, hm, hid⟩
    · exact .inr ⟨message, entity, state, hm, hid⟩
  · rintro (⟨message, entity, state, hm, hid⟩ | ⟨message, entity, state, hm, hid⟩)
    · exact ⟨message, entity, state, List.mem_append_left _ hm, hid⟩
    · exact ⟨message, entity, state, List.mem_append_right _ hm, hid⟩

/-- What becomes known was known before, is shown by the new events or is kept by the new object. -/
theorem Known.of_put {events es : List Event} {table : ReplicaTable} {replica : Replica}
    {id : NetId} {snapshot : Snapshot} (h : Known (events ++ es) (table.put replica) id snapshot) :
    Known events table id snapshot ∨ Shows es id snapshot ∨
      (id = replica.netId ∧ snapshot ∈ replica.kept) := by
  rcases h with hs | ⟨other, ho, hk⟩
  · rcases Shows.append.1 hs with hs | hs
    · exact .inl (.inl hs)
    · exact .inr (.inl hs)
  · rcases ReplicaTable.get?_put_some ho with ⟨hid, rfl⟩ | ⟨_, ho⟩
    · exact .inr (.inr ⟨hid, hk⟩)
    · exact .inl (.inr ⟨other, ho, hk⟩)

namespace Pacing

variable {shown current : Nat} {events es : List Event} {core next : Core}

/-- A step that queues nothing, moves no object and makes none. -/
theorem quiet (h : Pacing shown current events core)
    (queues : ∀ message entity snapshot state, .queued message entity snapshot state ∉ es)
    (objects : ∀ id replica, next.table.get? id = some replica →
      ∃ old, core.table.get? id = some old ∧ replica.current = old.current ∧
        ∀ snapshot ∈ replica.kept, snapshot ∈ old.kept) :
    Pacing shown current (events ++ es) next := by
  have known : ∀ id snapshot, Known (events ++ es) next.table id snapshot →
      Known events core.table id snapshot := by
    rintro id snapshot (hs | ⟨replica, hr, hk⟩)
    · rcases Shows.append.1 hs with hs | ⟨message, entity, state, hm, _⟩
      · exact .inl hs
      · exact absurd hm (queues message entity snapshot state)
    · obtain ⟨old, ho, _, kept⟩ := objects id replica hr
      exact .inr ⟨old, ho, kept snapshot hk⟩
  constructor
  · exact fun id snapshot hk => h.known_lt id snapshot (known id snapshot hk)
  · intro id replica hr
    obtain ⟨old, ho, hc, _⟩ := objects id replica hr
    rw [Replica.version, hc]
    exact h.current_lt id old ho
  · intro id replica snapshot hr hk
    obtain ⟨old, ho, hc, _⟩ := objects id replica hr
    rw [Replica.version, hc]
    exact h.known_le id old snapshot ho (known id snapshot hk)
  · exact fun id a b ha hb => h.functional id a b (known id a ha) (known id b hb)
  · intro message entity snapshot state hm
    rcases List.mem_append.1 hm with hm | hm
    · exact h.dated message entity snapshot state hm
    · exact absurd hm (queues message entity snapshot state)

/-- A step that stores one object. What becomes known by it is the current snapshot of the object,
and whatever was known of its id before is older or the same. -/
theorem put (h : Pacing shown current events core) {replica : Replica}
    (queues : ∀ message entity snapshot state, .queued message entity snapshot state ∈ es →
      state.netId = replica.netId ∧ state.version = replica.version ∧
        snapshot = replica.current ∧ replica.version.toNat < shown)
    (kept : ∀ snapshot ∈ replica.kept, Known events core.table replica.netId snapshot ∨
      (snapshot = replica.current ∧ replica.version.toNat < shown))
    (reached : replica.version.toNat < current)
    (older : ∀ snapshot, Known events core.table replica.netId snapshot →
      snapshot.version ≤ replica.version ∧
        (snapshot.version = replica.version → snapshot = replica.current))
    (names : Names) (box : Outbox) :
    Pacing shown current (events ++ es) ⟨names, core.table.put replica, box⟩ := by
  have known : ∀ id snapshot, Known (events ++ es) (core.table.put replica) id snapshot →
      Known events core.table id snapshot ∨
        (id = replica.netId ∧ snapshot = replica.current ∧ replica.version.toNat < shown) := by
    intro id snapshot hk
    rcases Known.of_put hk with hk | ⟨message, entity, state, hm, hid⟩ | ⟨rfl, stored⟩
    · exact .inl hk
    · obtain ⟨hn, _, hs, hlt⟩ := queues message entity snapshot state hm
      exact .inr ⟨hid.symm.trans hn, hs, hlt⟩
    · exact (kept snapshot stored).imp_right fun hs => ⟨rfl, hs⟩
  constructor
  · intro id snapshot hk
    rcases known id snapshot hk with hk | ⟨_, rfl, hlt⟩
    · exact h.known_lt id snapshot hk
    · exact hlt
  · intro id other ho
    rcases ReplicaTable.get?_put_some ho with ⟨_, rfl⟩ | ⟨_, ho⟩
    · exact reached
    · exact h.current_lt id other ho
  · intro id other snapshot ho hk
    rcases ReplicaTable.get?_put_some ho with ⟨rfl, rfl⟩ | ⟨hid, ho⟩
    · rcases known _ snapshot hk with hk | ⟨_, rfl, _⟩
      · exact older snapshot hk
      · exact ⟨UInt64.le_rfl, fun _ => rfl⟩
    · rcases known id snapshot hk with hk | ⟨he, _⟩
      · exact h.known_le id other snapshot ho hk
      · exact absurd he hid
  · intro id a b ha hb hv
    rcases known id a ha with ha | ⟨rfl, rfl, _⟩
    · rcases known id b hb with hb | ⟨rfl, rfl, _⟩
      · exact h.functional id a b ha hb hv
      · exact (older a ha).2 hv
    · rcases known _ b hb with hb | ⟨_, rfl, _⟩
      · exact ((older b hb).2 hv.symm).symm
      · rfl
  · intro message entity snapshot state hm
    rcases List.mem_append.1 hm with hm | hm
    · exact h.dated message entity snapshot state hm
    · obtain ⟨_, hv, rfl, _⟩ := queues message entity snapshot state hm
      exact hv

theorem grow {shown' current' : Nat} (hs : shown ≤ shown') (hc : current ≤ current')
    (h : Pacing shown current events core) : Pacing shown' current' events core :=
  { h with
    known_lt := fun id snapshot hk => Nat.lt_of_lt_of_le (h.known_lt id snapshot hk) hs
    current_lt := fun id replica hr => Nat.lt_of_lt_of_le (h.current_lt id replica hr) hc }

theorem known_before {now : Time} (h : Pacing shown current events core) (hs : shown ≤ now.toNat)
    {id : NetId} {snapshot : Snapshot} (hk : Known events core.table id snapshot) :
    snapshot.version < now := by
  rw [UInt64.lt_iff_toNat_lt]
  exact Nat.lt_of_lt_of_le (h.known_lt id snapshot hk) hs

/-- A change of an object at a time after all that was shown is taken over or leaves it alone. -/
theorem change {now : Time} (h : Pacing shown current events core) (hs : shown ≤ now.toNat)
    (hc : now.toNat < current) {replica : Replica}
    (queues : ∀ message entity snapshot state, .queued message entity snapshot state ∉ es)
    (kept : ∀ snapshot ∈ replica.kept, Known events core.table replica.netId snapshot)
    (moved : replica.version = now ∨ ∃ old, core.table.get? replica.netId = some old ∧
      replica.current = old.current)
    (names : Names) :
    Pacing shown current (events ++ es) ⟨names, core.table.put replica, core.box⟩ := by
  refine h.put (fun _ _ _ _ hm => absurd hm (queues _ _ _ _))
    (fun snapshot hk => .inl (kept snapshot hk)) ?_ ?_ _ _
  · rcases moved with hv | ⟨old, held, he⟩
    · rw [hv]
      exact hc
    · rw [Replica.version, he]
      exact h.current_lt _ old held
  · intro snapshot hk
    rcases moved with hv | ⟨old, held, he⟩
    · have lt := h.known_before hs hk
      rw [hv]
      exact ⟨UInt64.le_of_lt lt, fun he => absurd (he ▸ lt) (UInt64.lt_irrefl _)⟩
    · rw [Replica.version, he]
      exact h.known_le _ old snapshot held hk

/-- An update or a removal at a time after all that was shown. -/
theorem input {now : Time} (tidy : core.Tidy) (h : Pacing shown current events core)
    (hs : shown ≤ now.toNat) (hc : now.toNat < current) (step : Core.Input now core es next) :
    Pacing shown current (events ++ es) next := by
  have queues := (step.silent tidy).not_queued
  cases step with
  | remark => exact h.quiet queues fun id replica hr => ⟨replica, hr, rfl, fun _ hk => hk⟩
  | @update entity id names _ assigned zone zoneId position rotation =>
    have follows := (core.table.getOrNew id entity).update_follows now zone zoneId position rotation
    have moved := (core.table.getOrNew id entity).update_current now zone zoneId position rotation
    have named := follows.netId.trans (tidy.keyed.getOrNew id entity)
    refine h.change hs hc queues (fun snapshot hk => ?_) ?_ names
    · rw [named]
      have hk := follows.kept snapshot hk
      cases hg : core.table.get? id with
      | none =>
        rw [ReplicaTable.getOrNew_of_none hg, Replica.new_kept] at hk
        cases hk
      | some replica =>
        rw [ReplicaTable.getOrNew_of_some hg] at hk
        exact .inr ⟨replica, hg, hk⟩
    · rw [named]
      rcases moved with ⟨same, stale⟩ | ⟨taken, _⟩
      · cases hg : core.table.get? id with
        | none =>
          rw [ReplicaTable.getOrNew_of_none hg] at stale
          exact absurd stale (UInt64.not_lt.2 (UInt64.le_iff_toNat_le.2 (Nat.zero_le _)))
        | some replica =>
          rw [same, ReplicaTable.getOrNew_of_some hg]
          exact .inr ⟨replica, rfl, rfl⟩
      · exact .inl (by rw [Replica.version, taken])
  | @removal id replica held zone =>
    obtain rfl := tidy.keyed id replica held
    have follows := replica.removeFrom_follows now zone
    refine h.change hs hc queues (fun snapshot hk => ?_) ?_ core.names
    · rw [follows.netId]
      exact .inr ⟨replica, held, follows.kept snapshot hk⟩
    · rw [follows.netId]
      rcases replica.removeFrom_cases now zone with he | ⟨_, he⟩
      · exact .inr ⟨replica, held, congrArg Replica.current he⟩
      · exact .inl (by rw [he]; rfl)

/-- The object as a frame shows it is at least as new as what was known of its id. -/
theorem shownAt_older {now : Time} (h : Pacing shown current events core) {replica : Replica}
    (held : core.table.get? replica.netId = some replica) {snapshot : Snapshot}
    (hk : Known events core.table replica.netId snapshot) :
    snapshot.version ≤ (replica.shownAt now).version ∧
      (snapshot.version = (replica.shownAt now).version →
        snapshot = (replica.shownAt now).current) := by
  obtain ⟨hle, heq⟩ := h.known_le _ replica snapshot held hk
  simp only [Replica.version]
  rcases replica.shownAt_current now with hc | ⟨hlt, hc⟩
  · rw [hc]
    exact ⟨hle, heq⟩
  · rw [hc]
    have lt := UInt64.lt_of_le_of_lt hle hlt
    exact ⟨UInt64.le_of_lt lt, fun hv => absurd (hv ▸ lt) (UInt64.lt_irrefl _)⟩

/-- A frame shows an object, whether its state is queued or not. -/
theorem emit {now : Time} (h : Pacing (now.toNat + 1) (now.toNat + 1) events core)
    {replica : Replica} (held : core.table.get? replica.netId = some replica)
    (queues : ∀ message entity snapshot state, .queued message entity snapshot state ∈ es →
      state = (replica.shownAt now).delta ∧ snapshot = (replica.shownAt now).current)
    (box : Outbox) : Pacing (now.toNat + 1) (now.toNat + 1) (events ++ es)
      { core with table := core.table.put (replica.emittedAt now), box } := by
  have reached : (replica.shownAt now).version.toNat < now.toNat + 1 := by
    simp only [Replica.version]
    rcases replica.shownAt_current now with hc | ⟨_, hc⟩
    · rw [hc]
      exact h.current_lt _ replica held
    · rw [hc]
      exact Nat.lt_succ_self _
  have version : (replica.emittedAt now).version = (replica.shownAt now).version := by
    rw [Replica.version, Replica.emittedAt_current, Replica.version]
  refine h.put ?_ ?_ (version ▸ reached) ?_ _ _
  · intro message entity snapshot state hm
    obtain ⟨rfl, rfl⟩ := queues message entity snapshot state hm
    rw [Replica.delta_netId, Replica.delta_version, Replica.emittedAt_netId, version,
      Replica.emittedAt_current]
    exact ⟨(replica.shownAt_follows now).netId, rfl, rfl, reached⟩
  · intro snapshot hk
    rw [Replica.emittedAt_netId, Replica.emittedAt_current, version]
    rcases Replica.emit_kept hk with hk | rfl
    · exact .inl (.inr ⟨replica, held, (replica.shownAt_follows now).kept snapshot hk⟩)
    · exact .inr ⟨rfl, reached⟩
  · intro snapshot hk
    rw [Replica.emittedAt_netId] at hk
    rw [version, Replica.emittedAt_current]
    exact h.shownAt_older held hk

theorem box_step (h : Pacing shown current events core) {link : Link} {box : Outbox}
    (step : Outbox.Step link core.box es box) :
    Pacing shown current (events ++ es) { core with box } := by
  exact h.quiet step.not_queued fun id replica hr => ⟨replica, hr, rfl, fun _ hk => hk⟩

theorem output {link : Link} {now : Time} {acked : List MessageId} (tidy : core.Tidy)
    (h : Pacing (now.toNat + 1) (now.toNat + 1) events core)
    (step : Core.Output link now acked core es next) :
    Pacing (now.toNat + 1) (now.toNat + 1) (events ++ es) next := by
  cases step with
  | outbox step => exact h.box_step step
  | @settle id record box posted recorded =>
    have confirms : ReplicaTable.Confirms record.states core.table
        (core.table.commit record).value.2 :=
      (ReplicaTable.commitStates_keeps tidy.keyed tidy.ordered).2.2
    refine h.quiet (by simp) fun id replica hr => ?_
    obtain ⟨old, ho, hc⟩ := confirms.back hr
    exact ⟨old, ho, hc.current, fun _ hk => hc.kept hk⟩
  | release =>
    exact h.quiet (by simp) fun id replica hr => ⟨replica, hr, rfl, fun _ hk => hk⟩
  | present held => exact h.emit held (by simp) core.box
  | queue held opened =>
    refine h.emit held ?_ _
    intro message entity snapshot state hm
    cases List.mem_singleton.1 hm
    exact ⟨rfl, rfl⟩
  | @reap replica held gone =>
    refine h.quiet (Core.retire_silent _ _ _).not_queued fun id other ho => ?_
    exact ⟨other, (ReplicaTable.get?_erase_some ho).2, rfl, fun _ hk => hk⟩

theorem of_new (grid : Grid) (settings : Settings) (shown current : Nat) :
    Pacing shown current [] (Session.new grid settings).core := by
  have empty := ReplicaTable.get?_empty settings.historyCapacity
  have unknown : ∀ id snapshot,
      ¬ Known [] (Session.new grid settings).core.table id snapshot := by
    rintro id snapshot (⟨_, _, _, hm, _⟩ | ⟨replica, hr, _⟩)
    · cases hm
    · exact empty id replica hr
  constructor
  · exact fun id snapshot hk => absurd hk (unknown id snapshot)
  · exact fun id replica hr => absurd hr (empty id replica)
  · exact fun id replica _ hr => absurd hr (empty id replica)
  · exact fun id a _ ha => absurd ha (unknown id a)
  · simp

end Pacing

end AreaReplication
