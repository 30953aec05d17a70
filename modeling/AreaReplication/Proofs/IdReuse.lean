import AreaReplication.Proofs.Ledger

/-!
# Network ids are not reused too early

While a message that may still be acknowledged mentions a network id, the id is not given to
another entity: it stays with the entity that the message told of, or in quarantine. The watermark
of a reaped object is the message being filled, so nothing that mentions the object comes after it,
and the quarantine holds until every message up to the watermark is settled.
-/
namespace AreaReplication

/-- The entity that got `id`, if the event gives it out. -/
def Event.handsOut? (id : NetId) : Event → Option EntityId
  | .idAssigned given entity => if given = id then some entity else none
  | _ => none

def lastOwner? (events : List Event) (id : NetId) : Option EntityId :=
  (events.filterMap (Event.handsOut? id)).getLast?

/-- One occasion on which the state of an object at `version` was put into a message. -/
structure Emission (events : List Event) (message : MessageId) (id : NetId)
    (version : Version) where
  before : List Event
  entity : EntityId
  shown : Snapshot
  state : Delta
  since : List Event
  split : events = before ++ .queued message entity shown state :: since
  named : state.netId = id
  dated : state.version = version

/-- An outstanding message or the one being filled tells of the object at `version`. -/
def Outbox.Mentions (box : Outbox) (message : MessageId) (id : NetId) (version : Version) : Prop :=
  (∃ record, box.outstanding[message]? = some record ∧ (id, version) ∈ record.states) ∨
    (message = box.nextId ∧ (id, version) ∈ box.carried)

theorem Outbox.mentions_of_carried {box : Outbox} {message : MessageId} {id : NetId}
    {version : Version} (filling : message = box.nextId) (h : (id, version) ∈ box.carried) :
    box.Mentions message id version :=
  .inr ⟨filling, h⟩

/-- The id belongs to the entity, or it is in quarantine for at least as long as `message` is
unsettled. -/
def Names.Reserved (names : Names) (id : NetId) (entity : EntityId) (message : MessageId) : Prop :=
  names.entityOf? id = some entity ∨
    ∃ watermark, message ≤ watermark ∧ (watermark, id) ∈ names.quarantine

section Watermark

variable {box next : Outbox}

theorem Outbox.settledBefore_le {id : MessageId} (h : id ∈ box.outstanding) :
    box.settledBefore ≤ id := by
  unfold settledBefore
  cases hm : box.outstanding.minKey? with
  | none =>
    rw [Std.ExtTreeMap.minKey?_eq_none_iff] at hm
    simp [hm] at h
  | some least =>
    exact Std.isLE_compare.1 ((Std.ExtTreeMap.minKey?_eq_some_iff_mem_and_forall.1 hm).2 id h)

theorem Outbox.settledBefore_le_next (below : ∀ id ∈ box.outstanding, id ≤ box.nextId) :
    box.settledBefore ≤ box.nextId := by
  unfold settledBefore
  cases hm : box.outstanding.minKey? with
  | none => exact UInt64.le_rfl
  | some least => exact below least (Std.ExtTreeMap.minKey?_eq_some_iff_mem_and_forall.1 hm).1

theorem Outbox.settledBefore_mono (hn : box.nextId ≤ next.nextId)
    (below : ∀ id ∈ box.outstanding, id ≤ box.nextId)
    (hk : ∀ id ∈ next.outstanding, id ∈ box.outstanding ∨ box.nextId ≤ id) :
    box.settledBefore ≤ next.settledBefore := by
  have least := settledBefore_le_next below
  cases hm : next.outstanding.minKey? with
  | none =>
    rw [settledBefore, settledBefore, hm]
    exact UInt64.le_trans least hn
  | some id =>
    have found : next.settledBefore = id := by simp [settledBefore, hm]
    rw [found]
    rcases hk id (Std.ExtTreeMap.minKey?_eq_some_iff_mem_and_forall.1 hm).1 with hk | hk
    · exact settledBefore_le hk
    · exact UInt64.le_trans least hk

theorem Ledger.settledBefore_step {events es : List Event} (h : Ledger events box) {link : Link}
    (few : Few (events ++ es)) (step : Outbox.Step link box es next) :
    box.settledBefore ≤ next.settledBefore := by
  have below : ∀ id ∈ box.outstanding, id ≤ box.nextId :=
    fun id hm => UInt64.le_of_lt (h.recorded_lt hm)
  cases step with
  | remark => exact UInt64.le_rfl
  | resize => exact UInt64.le_rfl
  | @send packet =>
    refine Outbox.settledBefore_mono (h.next_le few) below fun id hm => ?_
    obtain ⟨record, hr⟩ := Option.isSome_iff_exists.1 (Std.ExtTreeMap.isSome_getElem?_iff_mem.2 hm)
    have hr := Outbox.forgetSurplus_outstanding hr
    simp only [Outbox.recordSent, Std.ExtTreeMap.getElem?_insert,
      Std.LawfulEqCmp.compare_eq_iff_eq] at hr
    split_ifs at hr with hid
    · exact .inr (hid ▸ UInt64.le_rfl)
    · exact .inl (Std.ExtTreeMap.isSome_getElem?_iff_mem.1 (Option.isSome_iff_exists.2 ⟨_, hr⟩))
  | drop => exact UInt64.le_rfl
  | push time center =>
    refine Outbox.settledBefore_mono ?_ below fun id hm => ?_
    · rw [Outbox.pushFrame_nextId]
      exact UInt64.le_rfl
    · rw [Outbox.pushFrame_outstanding] at hm
      exact .inl hm

end Watermark

namespace Emission

variable {events es : List Event} {message : MessageId} {id : NetId} {version : Version}

/-- An emission of a longer run happened before the events that were added, or is one of them. -/
theorem cases_append (emission : Emission (events ++ es) message id version) :
    (∃ old : Emission events message id version, old.before = emission.before ∧
        old.entity = emission.entity ∧ emission.since = old.since ++ es) ∨
      ∃ before, emission.before = events ++ before ∧
        es = before ++
          .queued message emission.entity emission.shown emission.state :: emission.since := by
  rcases List.append_eq_append_iff.1 emission.split with ⟨before, hb, he⟩ | ⟨rest, he, hr⟩
  · exact .inr ⟨before, hb, he⟩
  · cases rest with
    | nil => exact .inr ⟨[], by simpa using he.symm, by simpa using hr.symm⟩
    | cons first rest =>
      rw [List.cons_append] at hr
      obtain ⟨rfl, hs⟩ := List.cons.inj hr
      exact .inl ⟨⟨emission.before, emission.entity, emission.shown, emission.state, rest, he,
        emission.named, emission.dated⟩, rfl, rfl, hs⟩

theorem mem (emission : Emission events message id version) :
    .queued message emission.entity emission.shown emission.state ∈ events := by
  obtain ⟨before, entity, shown, state, since, rfl, _, _⟩ := emission
  simp

end Emission

/-- What is known of every emission that may still be acknowledged. -/
structure Unaliased (events : List Event) (core : Core) : Prop where
  owners : ∀ id entity, core.names.entityOf? id = some entity → lastOwner? events id = some entity
  emissions : ∀ {message id version} (emission : Emission events message id version),
    core.box.settledBefore ≤ message →
      lastOwner? emission.before id = some emission.entity ∧
      (∀ other, .idAssigned id other ∉ emission.since) ∧
      core.names.Reserved id emission.entity message

theorem lastOwner?_append {events es : List Event} {id : NetId}
    (quiet : ∀ other, .idAssigned id other ∉ es) :
    lastOwner? (events ++ es) id = lastOwner? events id := by
  have none : es.filterMap (Event.handsOut? id) = [] := by
    refine List.filterMap_eq_nil_iff.2 fun event he => ?_
    cases event with
    | idAssigned given entity =>
      by_cases hid : given = id
      · subst hid
        exact absurd he (quiet entity)
      · simp [Event.handsOut?, hid]
    | _ => rfl
  simp [lastOwner?, none]

namespace Unaliased

variable {events es : List Event} {core next : Core}

/-- A step that hands out nothing, queues nothing and gives back only what is not mentioned. -/
theorem quiet (h : Unaliased events core) (assigns : ∀ id other, .idAssigned id other ∉ es)
    (queues : ∀ message entity shown state, .queued message entity shown state ∉ es)
    (owners : ∀ id entity, next.names.entityOf? id = some entity →
      core.names.entityOf? id = some entity)
    (grows : core.box.settledBefore ≤ next.box.settledBefore)
    (reserved : ∀ message id entity, core.box.settledBefore ≤ message →
      next.box.settledBefore ≤ message → core.names.Reserved id entity message →
      (∃ version, Nonempty (Emission events message id version)) →
      next.names.Reserved id entity message) : Unaliased (events ++ es) next where
  owners id entity hu := by
    rw [lastOwner?_append (assigns id)]
    exact h.owners id entity (owners id entity hu)
  emissions emission hm := by
    rcases emission.cases_append with ⟨old, hb, he, hs⟩ | ⟨before, _, he⟩
    · obtain ⟨howner, hsince, hres⟩ := h.emissions old (UInt64.le_trans grows hm)
      rw [hb, he] at howner
      rw [he] at hres
      refine ⟨howner, fun other ho => ?_, ?_⟩
      · rw [hs] at ho
        rcases List.mem_append.1 ho with ho | ho
        · exact hsince other ho
        · exact assigns _ other ho
      · exact reserved _ _ _ (UInt64.le_trans grows hm) hm hres ⟨_, ⟨old⟩⟩
    · exact absurd (he ▸ List.mem_append_right _ List.mem_cons_self) (queues _ _ _ _)

theorem of_new (grid : Grid) (settings : Settings) :
    Unaliased [] (Session.new grid settings).core where
  owners id entity hu := by
    simp [Session.core, Session.new, Names.entityOf?] at hu
  emissions emission := by
    have := emission.split
    simp at this

/-- A step of the outbox notes neither assignments nor queued states. -/
theorem box_step (h : Unaliased events core) (ledger : Ledger events core.box) {link : Link}
    {box : Outbox} (few : Few (events ++ es)) (step : Outbox.Step link core.box es box) :
    Unaliased (events ++ es) { core with box } := by
  have grows := ledger.settledBefore_step few step
  exact h.quiet step.not_assigned step.not_queued (fun _ _ hu => hu) grows
    fun _ _ _ _ _ hres _ => hres

/-- An id is handed out only if it is neither in use nor in quarantine. -/
theorem assign (h : Unaliased events core) (tidy : core.Tidy) {entity : EntityId} {id : NetId}
    {names : Names} (assigned : core.names.assign entity = ⟨(some id, names), es⟩)
    (table : ReplicaTable) : Unaliased (events ++ es) { core with names, table } := by
  rcases core.names.assign_cases entity with ⟨used, _, hc⟩ | ⟨fresh, rest, _, ht, hc⟩ | hc
  · obtain ⟨⟨rfl, rfl⟩, rfl⟩ : (used = id ∧ core.names = names) ∧ [] = es := by
      simpa using hc.symm.trans assigned
    exact h.quiet (by simp) (by simp) (fun _ _ hu => hu) UInt64.le_rfl fun _ _ _ _ _ hr _ => hr
  · obtain ⟨⟨rfl, rfl⟩, rfl⟩ : (fresh = id ∧ rest.bind fresh entity = names) ∧ _ = es := by
      simpa using hc.symm.trans assigned
    have hf := Names.take?_fresh tidy.names ht
    have others : ∀ other, fresh ≠ other → lastOwner? (events ++ [.idAssigned fresh entity]) other =
        lastOwner? events other := by
      intro other ho
      refine lastOwner?_append fun owner hm => ho ?_
      cases List.mem_singleton.1 hm
      rfl
    constructor
    · intro other owner hu
      rw [hf.entityOf?_bind] at hu
      split_ifs at hu with ho
      · subst ho
        simpa [lastOwner?, Event.handsOut?] using hu
      · rw [others other ho]
        exact h.owners other owner hu
    · intro message other version emission hm
      rcases emission.cases_append with ⟨old, hb, he, hs⟩ | ⟨before, _, he⟩
      · obtain ⟨howner, hsince, hres⟩ := h.emissions old hm
        have ho : fresh ≠ other := by
          rintro rfl
          rcases hres with hu | ⟨mark, _, hq⟩
          · rw [hf.unused] at hu
            cases hu
          · exact hf.unquarantined ⟨mark, hq⟩
        rw [hb, he] at howner
        rw [he] at hres
        refine ⟨howner, fun owner hm => ?_, ?_⟩
        · rw [hs] at hm
          rcases List.mem_append.1 hm with hm | hm
          · exact hsince owner hm
          · cases List.mem_singleton.1 hm
            exact ho rfl
        · rcases hres with hu | ⟨mark, hle, hq⟩
          · exact .inl (by rw [hf.entityOf?_bind, if_neg ho, hu])
          · exact .inr ⟨mark, hle, by rw [Names.bind, hf.quarantine]; exact hq⟩
      · have hm : Event.queued message emission.entity emission.shown emission.state ∈
            before ++ .queued message emission.entity emission.shown emission.state ::
              emission.since := by simp
        rw [← he] at hm
        cases List.mem_singleton.1 hm
  · rw [hc] at assigned
    cases assigned

theorem input (h : Unaliased events core) (tidy : core.Tidy) {now : Time}
    (step : Core.Input now core es next) : Unaliased (events ++ es) next := by
  cases step with
  | remark hr =>
    exact h.quiet (Event.not_assigned hr) (Silent.of_remark hr).not_queued (fun _ _ hu => hu)
      UInt64.le_rfl fun _ _ _ _ _ hres _ => hres
  | update assigned => exact h.assign tidy assigned _
  | removal =>
    exact h.quiet (by simp) (by simp) (fun _ _ hu => hu) UInt64.le_rfl fun _ _ _ _ _ hres _ => hres

/-- What is queued is of an object that has its id now. -/
theorem queue (h : Unaliased events core) (tidy : core.Tidy) {replica : Replica}
    (held : core.table.get? replica.netId = some replica) (shown : Snapshot) {state : Delta}
    (named : state.netId = replica.netId) (table : ReplicaTable) :
    Unaliased (events ++ [.queued core.box.nextId replica.entity shown state])
      { core with table, box := core.box.appendState state } where
  owners id entity hu := by
    rw [lastOwner?_append (by simp)]
    exact h.owners id entity hu
  emissions {message id version} emission hm := by
    rcases emission.cases_append with ⟨old, hb, he, hs⟩ | ⟨before, hb, he⟩
    · obtain ⟨howner, hsince, hres⟩ := h.emissions old hm
      rw [hb, he] at howner
      rw [he] at hres
      refine ⟨howner, fun other ho => ?_, hres⟩
      rw [hs] at ho
      rcases List.mem_append.1 ho with ho | ho
      · exact hsince other ho
      · cases List.mem_singleton.1 ho
    · cases before with
      | cons first rest => simp at he
      | nil =>
        obtain ⟨hq, hs⟩ := List.cons.inj he
        have owned := tidy.tracked _ replica held
        obtain ⟨-, howner, -, hstate⟩ := Event.queued.inj hq
        obtain rfl : replica.netId = id := by rw [← named, hstate, emission.named]
        rw [List.append_nil] at hb
        rw [hb, ← hs, ← howner]
        exact ⟨h.owners _ _ owned, by simp, .inl owned⟩

theorem output (h : Unaliased events core) (tidy : core.Tidy) (ledger : Ledger events core.box)
    {link : Link} {now : Time} {acked : List MessageId} (few : Few (events ++ es))
    (step : Core.Output link now acked core es next) : Unaliased (events ++ es) next := by
  cases step with
  | outbox step => exact h.box_step ledger few step
  | @settle id record box posted recorded =>
    obtain ⟨-, rfl⟩ := Outbox.takeRecord_some recorded
    refine h.quiet (by simp) (by simp) (fun _ _ hu => hu) ?_ fun _ _ _ _ _ hres _ => hres
    have grows : core.box.settledBefore ≤ Outbox.settledBefore { core.box with
        outstanding := core.box.outstanding.erase id
        toEcho := core.box.toEcho.filter fun ack => !record.echoed.contains ack } :=
      Outbox.settledBefore_mono UInt64.le_rfl
        (fun id hm => UInt64.le_of_lt (ledger.recorded_lt hm))
        (fun other hm => .inl (Std.ExtTreeMap.mem_of_mem_erase hm))
    simp only [Core.settle]
    split_ifs
    · exact grows
    · exact grows
  | release =>
    refine h.quiet (by simp) (by simp) (fun _ _ hu => hu) UInt64.le_rfl ?_
    rintro message id entity hm - (hu | ⟨mark, hle, hq⟩) -
    · exact .inl hu
    · refine .inr ⟨mark, hle, Names.release_keeps hq ?_⟩
      exact UInt64.not_lt.2 (UInt64.le_trans hm hle)
  | present =>
    exact h.quiet (by simp) (by simp) (fun _ _ hu => hu) UInt64.le_rfl fun _ _ _ _ _ hres _ => hres
  | @queue replica held opened =>
    exact h.queue tidy held _ (replica.shownAt_delta_netId now) _
  | @reap replica held gone =>
    refine h.quiet ?_ (Core.retire_silent _ _ _).not_queued ?_ UInt64.le_rfl ?_
    · intro id other hm
      obtain ⟨_, he⟩ := Names.retire_events _ _ _ hm
      cases he
    · intro id entity hu
      rw [Names.retire_entityOf?] at hu
      split_ifs at hu
      exact hu
    · rintro message id entity - - hres ⟨version, ⟨emission⟩⟩
      have owned := tidy.tracked _ replica held
      have quarantined := Names.retire_quarantine core.box.nextId owned
      rcases hres with hu | ⟨mark, hle, hq⟩
      -- The id goes into quarantine under the message being filled, and no emission is later.
      · by_cases hid : replica.netId = id
        · refine .inr ⟨core.box.nextId, ?_, by rw [quarantined, hid]; exact List.mem_cons_self⟩
          exact ledger.queued_le _ _ _ _ emission.mem
        · exact .inl (by rw [Names.retire_entityOf?, if_neg hid]; exact hu)
      · exact .inr ⟨mark, hle, by rw [quarantined]; exact List.mem_cons_of_mem _ hq⟩

/-- Operations keep the ids apart as long as the message numbers last. -/
theorem call (h : Unaliased events core) (tidy : core.Tidy) (ledger : Ledger events core.box)
    {link : Link} {acked : List MessageId} {call : Session.Call} (few : Few (events ++ es))
    (step : call.Step link acked core es next) : Unaliased (events ++ es) next := by
  cases call with
  | stateChanged => exact h.input tidy step
  | endFrame => exact h.output tidy ledger few step
  | _ =>
    obtain ⟨box, step, rfl⟩ := step
    exact h.box_step ledger few step

end Unaliased

namespace Ledger

variable {events : List Event} {box : Outbox} {message : MessageId} {id : NetId} {version : Version}

theorem mentions_emitted (h : Ledger events box) (hm : box.Mentions message id version) :
    Nonempty (Emission events message id version) := by
  have emitted : ∀ state, state.key = (id, version) →
      (∃ entity shown, .queued message entity shown state ∈ events) →
      Nonempty (Emission events message id version) := by
    rintro state hk ⟨entity, shown, hq⟩
    obtain ⟨before, since, split⟩ := List.append_of_mem hq
    obtain ⟨named, dated⟩ := Prod.mk.inj hk
    exact ⟨⟨before, entity, shown, state, since, split, named, dated⟩⟩
  rcases hm with ⟨record, hr, hs⟩ | ⟨rfl, hc⟩
  · obtain ⟨_, sent, hsent, rfl, hstates, _⟩ := h.recorded message record hr
    rw [hstates] at hs
    obtain ⟨state, hs, hk⟩ := List.mem_map.1 hs
    exact emitted state hk (h.sent_queued sent hsent state hs)
  · rw [← List.mem_reverse, h.carried] at hc
    obtain ⟨state, hs, hk⟩ := List.mem_map.1 hc
    exact emitted state hk (h.buffered_queued state hs)

theorem mentions_unsettled (h : Ledger events box) (hm : box.Mentions message id version) :
    box.settledBefore ≤ message := by
  rcases hm with ⟨record, hr, _⟩ | ⟨rfl, _⟩
  · exact Outbox.settledBefore_le
      (Std.ExtTreeMap.isSome_getElem?_iff_mem.1 (Option.isSome_iff_exists.2 ⟨record, hr⟩))
  · exact Outbox.settledBefore_le_next fun id hm => UInt64.le_of_lt (h.recorded_lt hm)

end Ledger

namespace Session

def afterAcks (session : Session) (acks : List Ack) : Outbox × ReplicaTable :=
  (Intake.settleAll acks session.intake.ping session.outbox session.table).value.2.2

variable {session : Session}

theorem settle_outstanding {box : Outbox} {table : ReplicaTable} {acked id : MessageId}
    {record : SentRecord} (h : (Intake.settle box table acked).value.2.1.outstanding[id]? =
      some record) : box.outstanding[id]? = some record := by
  unfold Intake.settle at h
  cases ht : box.takeRecord acked with
  | none =>
    simp only [ht, Noted.value_bind, Noted.value_pure] at h
    exact h
  | some taken =>
    obtain ⟨used, rest⟩ := taken
    obtain ⟨-, rfl⟩ := Outbox.takeRecord_some ht
    have fewer : (box.outstanding.erase acked)[id]? = some record := by
      simp only [ht, Noted.value_bind] at h
      split_ifs at h
      · exact h
      · exact h
    rw [Std.ExtTreeMap.getElem?_erase] at fewer
    split_ifs at fewer
    exact fewer

theorem afterAcks_outstanding (acks : List Ack) {id : MessageId} {record : SentRecord}
    (h : (session.afterAcks acks).1.outstanding[id]? = some record) :
    session.outbox.outstanding[id]? = some record := by
  unfold afterAcks at h
  generalize session.intake.ping = ping at h
  generalize session.outbox = box, session.table = table at h ⊢
  induction acks generalizing ping box table with
  | nil => exact h
  | cons ack rest ih => exact settle_outstanding (ih _ _ _ h)

/-- Working off an acknowledgment moves only baselines of objects that its message carried, and to
the version that it carried. -/
theorem settle_baseline {names : Names} {table : ReplicaTable} {box : Outbox}
    (tidy : Core.Tidy ⟨names, table, box⟩) {acked : MessageId} {id : NetId} {old new : Replica}
    (before : table.get? id = some old)
    (after : (Intake.settle box table acked).value.2.2.get? id = some new)
    (moved : new.baseline ≠ old.baseline) : new.entity = old.entity ∧
      ∃ version record, new.baselineVersion = some version ∧
        box.outstanding[acked]? = some record ∧ (id, version) ∈ record.states := by
  unfold Intake.settle at after
  cases ht : box.takeRecord acked with
  | none =>
    simp only [ht, Noted.value_bind, Noted.value_pure] at after
    obtain rfl : old = new := Option.some.inj (before.symm.trans after)
    exact absurd rfl moved
  | some taken =>
    obtain ⟨record, rest⟩ := taken
    have committed : (table.commit record).value.2.get? id = some new := by
      simp only [ht, Noted.value_bind] at after
      split_ifs at after
      · exact after
      · exact after
    have confirms : ReplicaTable.Confirms record.states table (table.commit record).value.2 :=
      (ReplicaTable.commitStates_keeps tidy.keyed tidy.ordered).2.2
    have confirmed := confirms.replica id old new before committed
    refine ⟨confirmed.entity, ?_⟩
    rcases confirmed.baseline with same | ⟨version, snapshot, hv, he, hb⟩
    · exact absurd same moved
    · refine ⟨version, record, ?_, (Outbox.takeRecord_some ht).1, hv⟩
      rw [Replica.baselineVersion, hb, Option.map_some, (tidy.ordered id old before).named _ he]

theorem play_unaliased (grid : Grid) (settings : Settings) (calls : List (Link × Call))
    (few : Few (play calls (new grid settings)).events) :
    (play calls (new grid settings)).value.core.Tidy ∧
      Ledger (play calls (new grid settings)).events
        (play calls (new grid settings)).value.outbox ∧
      Unaliased (play calls (new grid settings)).events
        (play calls (new grid settings)).value.core := by
  have start : Few [] → Ledger [] (new grid settings).core.box ∧
      Unaliased [] (new grid settings).core :=
    fun _ => ⟨.of_new grid settings, .of_new grid settings⟩
  obtain ⟨tidy, kept⟩ := play_keeps
    (P := fun events core => Few events → Ledger events core.box ∧ Unaliased events core)
    (fun link call acked events core es next tidy h step few => by
      obtain ⟨ledger, unaliased⟩ := h few.of_append
      exact ⟨step.ledger tidy (fun _ => ledger) few, unaliased.call tidy ledger few step⟩)
    calls (new_tidy grid settings) start
  exact ⟨tidy, kept few⟩

/-- No network id is aliased, whatever the calls and their failures: an id that an outstanding
message or the one being filled mentions has not been given out since, and it still belongs to the
same entity or is in quarantine. So an acknowledgment moves only the baselines of objects whose
states the acknowledged message carried. -/
theorem mentioned_ids_not_reused (grid : Grid) (settings : Settings) (calls : List (Link × Call))
    (few : Few (play calls (new grid settings)).events) :
    let events := (play calls (new grid settings)).events
    let session := (play calls (new grid settings)).value
    (∀ message id version, session.outbox.Mentions message id version →
      Nonempty (Emission events message id version) ∧
      ∀ emission : Emission events message id version,
        lastOwner? emission.before id = some emission.entity ∧
        (∀ other, .idAssigned id other ∉ emission.since) ∧
        (session.names.entityOf? id = some emission.entity ∨ session.names.Quarantined id)) ∧
    ∀ (acks : List Ack) (acked : MessageId) (id : NetId) (old new : Replica),
      (session.afterAcks acks).2.get? id = some old →
      (Intake.settle (session.afterAcks acks).1 (session.afterAcks acks).2
        acked).value.2.2.get? id = some new →
      new.baseline ≠ old.baseline →
      new.entity = old.entity ∧ ∃ version, new.baselineVersion = some version ∧
        session.outbox.Mentions acked id version ∧
        ∃ emission : Emission events acked id version, emission.entity = old.entity := by
  intro events session
  obtain ⟨tidy, ledger, unaliased⟩ := play_unaliased grid settings calls few
  have mentioned : ∀ message id version, session.outbox.Mentions message id version →
      Nonempty (Emission events message id version) ∧
      ∀ emission : Emission events message id version,
        lastOwner? emission.before id = some emission.entity ∧
        (∀ other, .idAssigned id other ∉ emission.since) ∧
        (session.names.entityOf? id = some emission.entity ∨ session.names.Quarantined id) := by
    intro message id version hm
    refine ⟨ledger.mentions_emitted hm, fun emission => ?_⟩
    obtain ⟨howner, hsince, hres⟩ :=
      unaliased.emissions emission (ledger.mentions_unsettled hm)
    exact ⟨howner, hsince, hres.imp_right fun ⟨mark, _, hq⟩ => ⟨mark, hq⟩⟩
  refine ⟨mentioned, fun acks acked id old new before after moved => ?_⟩
  have path := settleAll_path ⟨fun _ => 0, fun _ => none⟩ 0 (acks.map Ack.id) session.names acks
    (fun ack ha => List.mem_map_of_mem ha) session.intake.ping session.table session.outbox
  have settled := Core.tidy_of_path path tidy
  obtain ⟨entity, version, record, hv, hr, hs⟩ := settle_baseline settled before after moved
  have hm : session.outbox.Mentions acked id version :=
    .inl ⟨record, afterAcks_outstanding acks hr, hs⟩
  obtain ⟨⟨emission⟩, known⟩ := mentioned acked id version hm
  refine ⟨entity, version, hv, hm, emission, ?_⟩
  have owned := settled.tracked id old before
  rcases (known emission).2.2 with held | quarantined
  · exact Option.some.inj (held.symm.trans owned)
  · exact absurd quarantined (tidy.names.used_not_quarantined id _ owned)

/-- Entity 7 leaves and is reaped while the message that told of it is still being filled: its id 1
stays in quarantine, and entity 8, which comes next, gets another. -/
def departure : List (Link × Call) :=
  undisturbed [sightings 1 [7], .endFrame 1, .endFrame 2, .endFrame 3, sightings 4 [8], .endFrame 4]

theorem mentioned_ids_not_reused_departure :
    Few (play departure (new ⟨⟨.one, .one, .one⟩⟩ {})).events ∧
      (play departure (new ⟨⟨.one, .one, .one⟩⟩ {})).value.outbox.Mentions 0 1 2 ∧
      ∀ emission : Emission (play departure (new ⟨⟨.one, .one, .one⟩⟩ {})).events 0 1 2,
        ∀ other, .idAssigned 1 other ∉ emission.since := by
  have few : Few (play departure (new ⟨⟨.one, .one, .one⟩⟩ {})).events := by decide_cbv
  have filling : 0 = (play departure (new ⟨⟨.one, .one, .one⟩⟩ {})).value.outbox.nextId := by
    decide_cbv
  have carried : (1, 2) ∈ (play departure (new ⟨⟨.one, .one, .one⟩⟩ {})).value.outbox.carried := by
    decide_cbv
  have mentioned := Outbox.mentions_of_carried filling carried
  refine ⟨few, mentioned, fun emission => ?_⟩
  exact (((mentioned_ids_not_reused _ _ _ few).1 0 1 2 mentioned).2 emission).2.1

end Session

end AreaReplication
