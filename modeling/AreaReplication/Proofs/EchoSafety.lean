import AreaReplication.Proofs.Ledger
import AreaReplication.Proofs.Pacing

/-!
# Echoes never run ahead of the baselines

A client may forget what is older than an echoed message carried. That is safe because an
acknowledgment is echoed only once every object that its message carried has a baseline at least as
new: from then on everything the object keeps is at least as new, and so is whatever comes to have
its network id. This takes a paced run, but nothing of the acknowledgments: they may be forged.
-/
namespace AreaReplication

def Carries (events : List Event) (acked : MessageId) (id : NetId) (version : Version) : Prop :=
  ∃ message ∈ messagesSent events, message.id = acked ∧
    ∃ state ∈ message.states, state.key = (id, version)

/-- An echo of `acked` is on its way or may yet be. -/
def Echoed (events : List Event) (box : Outbox) (acked : MessageId) : Prop :=
  acked ∈ box.toEcho ∨ acked ∈ box.echoed ∨ ∃ message ∈ messagesSent events, acked ∈ message.echoed

/-- Nothing that the object keeps is older than `version`. -/
def AtLeast (table : ReplicaTable) (id : NetId) (version : Version) : Prop :=
  ∀ replica, table.get? id = some replica →
    version ≤ replica.version ∧ ∀ snapshot ∈ replica.kept, version ≤ snapshot.version

/-- No state builds on a version older than one that an echoed message carried. -/
def Covers (events : List Event) (echoed : List MessageId) (states : List Delta) : Prop :=
  ∀ acked ∈ echoed, ∀ id version, Carries events acked id version → ∀ state ∈ states,
    state.netId = id → ∀ base, state.baseline = some base → version ≤ base

structure EchoSafe (events : List Event) (core : Core) : Prop where
  sent : ∀ acked, Echoed events core.box acked → ∃ message ∈ messagesSent events, message.id = acked
  earlier : ∀ message ∈ messagesSent events, ∀ acked ∈ message.echoed, acked < message.id
  floor : ∀ acked, Echoed events core.box acked → ∀ id version, Carries events acked id version →
    AtLeast core.table id version
  filling : Covers events core.box.echoed core.box.buffered
  buffered : ∀ message ∈ messagesSent events, Covers events message.echoed core.box.buffered
  later : ∀ message ∈ messagesSent events, ∀ next ∈ messagesSent events, message.id ≤ next.id →
    Covers events message.echoed next.states

theorem Ascending.mem_insert {α κ : Type} [LT κ] [DecidableLT κ] {key : α → κ} {a b : α}
    {list : List α} (h : b ∈ Ascending.insert key a list) : b = a ∨ b ∈ list := by
  induction list with
  | nil => exact .inl (List.mem_singleton.1 h)
  | cons first rest ih =>
    unfold Ascending.insert at h
    split_ifs at h
    · rcases List.mem_cons.1 h with rfl | h
      · exact .inr List.mem_cons_self
      · exact (ih h).imp_right (List.mem_cons_of_mem first)
    · exact List.mem_cons.1 h
    · exact (List.mem_cons.1 h).imp_right (List.mem_cons_of_mem first)

theorem Outbox.mem_echo {box : Outbox} {id acked : MessageId} (h : acked ∈ (box.echo id).toEcho) :
    acked = id ∨ acked ∈ box.toEcho :=
  Ascending.mem_insert (List.mem_of_mem_drop h)

namespace AtLeast

variable {table : ReplicaTable} {id : NetId} {version : Version}

theorem put (h : AtLeast table id version) {replica : Replica}
    (stored : replica.netId = id →
      version ≤ replica.version ∧ ∀ snapshot ∈ replica.kept, version ≤ snapshot.version) :
    AtLeast (table.put replica) id version := by
  intro other ho
  rcases ReplicaTable.get?_put_some ho with ⟨hid, rfl⟩ | ⟨_, ho⟩
  · exact stored hid.symm
  · exact h other ho

theorem emit (h : AtLeast table id version) {replica : Replica}
    (held : table.get? replica.netId = some replica) (now : Time) :
    AtLeast (table.put (replica.emittedAt now)) id version := by
  refine h.put fun hid => ?_
  rw [Replica.emittedAt_netId] at hid
  obtain ⟨hv, hk⟩ := h replica (hid ▸ held)
  have risen := UInt64.le_trans hv (replica.version_le_shownAt now)
  refine ⟨?_, fun snapshot hs => ?_⟩
  · rw [Replica.version, Replica.emittedAt_current]
    exact risen
  · rcases Replica.emit_kept hs with hs | rfl
    · exact hk snapshot ((replica.shownAt_follows now).kept snapshot hs)
    · exact risen

theorem erase (h : AtLeast table id version) (gone : NetId) :
    AtLeast (table.erase gone) id version :=
  fun other ho => h other (ReplicaTable.get?_erase_some ho).2

theorem confirm (h : AtLeast table id version) {states : List (NetId × Version)}
    {after : ReplicaTable} (confirms : ReplicaTable.Confirms states table after) :
    AtLeast after id version := by
  intro replica hr
  obtain ⟨old, ho, hc⟩ := confirms.back hr
  obtain ⟨hv, hk⟩ := h old ho
  refine ⟨?_, fun snapshot hs => hk snapshot (hc.kept hs)⟩
  rw [Replica.version, hc.current]
  exact hv

end AtLeast

variable {events es : List Event} {core next : Core}

/-- A carried version was shown, so it is before all times to come. -/
theorem Pacing.carried_lt {shown current : Nat} (h : Pacing shown current events core)
    (ledger : Ledger events core.box) {acked : MessageId} {id : NetId} {version : Version}
    (hc : Carries events acked id version) : version.toNat < shown := by
  obtain ⟨message, hm, _, state, hs, hk⟩ := hc
  obtain ⟨entity, snapshot, hq⟩ := ledger.sent_queued message hm state hs
  obtain ⟨named, dated⟩ := Prod.mk.inj hk
  rw [← dated, h.dated _ _ _ _ hq]
  exact h.known_lt id snapshot (.inl ⟨_, _, _, hq, named⟩)

/-- Events by which the echoed messages carry nothing more. -/
theorem Covers.mono {more : List Event} {echoed : List MessageId} {states : List Delta}
    (h : Covers events echoed states) (carries : ∀ acked ∈ echoed, ∀ id version,
      Carries more acked id version → Carries events acked id version) :
    Covers more echoed states :=
  fun acked ha id version hc => h acked ha id version (carries acked ha id version hc)

/-- The echoes of a sent message are those that were in it while it was filled. -/
theorem Echoed.of_send {box : Outbox} {link : Link} {packet : Packet} {acked : MessageId}
    (h : Echoed (events ++ [.sent (box.pendingMessage link) packet])
      (box.recordSent (box.pendingMessage link) packet.length).forgetSurplus acked) :
    Echoed events box acked := by
  rcases h with ha | ha | ⟨message, hm, ha⟩
  · exact .inl ha
  · cases ha
  · rw [messagesSent_concat] at hm
    rcases List.mem_append.1 hm with hm | hm
    · exact .inr (.inr ⟨message, hm, ha⟩)
    · obtain rfl := List.mem_singleton.1 hm
      exact .inr (.inl ha)

namespace EchoSafe

/-- What is echoed was sent before, so the message being sent is not the one echoed. -/
theorem carries_of_send (h : EchoSafe events core) (ledger : Ledger events core.box) {link : Link}
    {packet : Packet} {acked : MessageId} (echoed : Echoed events core.box acked) {id : NetId}
    {version : Version}
    (hc : Carries (events ++ [.sent (core.box.pendingMessage link) packet]) acked id version) :
    Carries events acked id version := by
  obtain ⟨message, hm, hid, carried⟩ := hc
  rw [messagesSent_concat] at hm
  rcases List.mem_append.1 hm with hm | hm
  · exact ⟨message, hm, hid, carried⟩
  · obtain rfl := List.mem_singleton.1 hm
    obtain ⟨earlier, he, hid'⟩ := h.sent acked echoed
    have lt := ledger.sent_lt he
    rw [hid', ← hid] at lt
    exact absurd lt (UInt64.lt_irrefl _)

/-- A step that sends nothing and fills in no state. An echo that it adds has to be safe. -/
theorem quiet (h : EchoSafe events core) (silent : messagesSent es = [])
    (echoes : ∀ acked, acked ∈ next.box.toEcho ∨ acked ∈ next.box.echoed →
      Echoed events core.box acked ∨ ((∃ message ∈ messagesSent events, message.id = acked) ∧
        ∀ id version, Carries events acked id version → AtLeast next.table id version))
    (floor : ∀ acked id version, Carries events acked id version →
      AtLeast core.table id version → AtLeast next.table id version)
    (filling : Covers events next.box.echoed next.box.buffered)
    (fewer : ∀ state ∈ next.box.buffered, state ∈ core.box.buffered) :
    EchoSafe (events ++ es) next := by
  have sent : messagesSent (events ++ es) = messagesSent events := by simp [silent]
  have carries : ∀ {acked id version}, Carries (events ++ es) acked id version →
      Carries events acked id version := by
    intro acked id version hc
    rwa [Carries, sent] at hc
  have covers : ∀ {echoed states}, Covers events echoed states →
      Covers (events ++ es) echoed states := fun hc => hc.mono fun _ _ _ _ => carries
  have echoed : ∀ acked, Echoed (events ++ es) next.box acked → Echoed events core.box acked ∨
      ((∃ message ∈ messagesSent events, message.id = acked) ∧
        ∀ id version, Carries events acked id version → AtLeast next.table id version) := by
    rintro acked (ha | ha | ha)
    · exact echoes acked (.inl ha)
    · exact echoes acked (.inr ha)
    · rw [sent] at ha
      exact .inl (.inr (.inr ha))
  constructor
  · intro acked ha
    rw [sent]
    exact (echoed acked ha).elim (h.sent acked) (·.1)
  · rw [sent]
    exact h.earlier
  · intro acked ha id version hc
    have hc := carries hc
    rcases echoed acked ha with ha | ⟨_, safe⟩
    · exact floor acked id version hc (h.floor acked ha id version hc)
    · exact safe id version hc
  · exact covers filling
  · rw [sent]
    intro message hm
    refine covers fun acked ha id version hc state hs => ?_
    exact h.buffered message hm acked ha id version hc state (fewer state hs)
  · rw [sent]
    exact fun message hm next hn hle => covers (h.later message hm next hn hle)

/-- Steps that leave the outbox as it is. -/
theorem kept (h : EchoSafe events core) (silent : messagesSent es = []) (same : next.box = core.box)
    (floor : ∀ acked id version, Carries events acked id version →
      AtLeast core.table id version → AtLeast next.table id version) :
    EchoSafe (events ++ es) next := by
  refine h.quiet silent ?_ floor (same ▸ h.filling) (same ▸ fun _ hs => hs)
  rw [same]
  rintro acked (ha | ha)
  · exact .inl (.inl ha)
  · exact .inl (.inr (.inl ha))

theorem send (h : EchoSafe events core) (ledger : Ledger events core.box) (link : Link)
    {packet : Packet} : EchoSafe (events ++ [.sent (core.box.pendingMessage link) packet])
      { core with box :=
          (core.box.recordSent (core.box.pendingMessage link) packet.length).forgetSurplus } := by
  constructor
  · intro acked ha
    obtain ⟨message, hm, hid⟩ := h.sent acked ha.of_send
    rw [messagesSent_concat]
    exact ⟨message, List.mem_append_left _ hm, hid⟩
  · intro message hm acked ha
    rw [messagesSent_concat] at hm
    rcases List.mem_append.1 hm with hm | hm
    · exact h.earlier message hm acked ha
    · obtain rfl := List.mem_singleton.1 hm
      obtain ⟨carrier, hc, rfl⟩ := h.sent acked (.inr (.inl ha))
      exact ledger.sent_lt hc
  · intro acked ha id version hc
    exact h.floor acked ha.of_send id version (h.carries_of_send ledger ha.of_send hc)
  · intro acked ha
    cases ha
  · intro message hm acked ha id version hc state hs
    cases hs
  · intro message hm next hn hle
    -- The pair is of two old messages, or the later one is the message being sent.
    have covers : ∀ {states}, Covers events message.echoed states → Covers (events ++
        [.sent (core.box.pendingMessage link) packet]) message.echoed states := by
      intro states hc
      refine hc.mono fun acked ha id version => h.carries_of_send ledger ?_
      exact Echoed.of_send (.inr (.inr ⟨message, hm, ha⟩))
    rw [messagesSent_concat] at hm hn
    rcases List.mem_append.1 hn with hn | hn
    · rcases List.mem_append.1 hm with hm | hm
      · exact covers (h.later message hm next hn hle)
      · obtain rfl := List.mem_singleton.1 hm
        exact absurd (UInt64.lt_of_lt_of_le (ledger.sent_lt hn) hle) (UInt64.lt_irrefl _)
    · obtain rfl := List.mem_singleton.1 hn
      rw [Outbox.pendingMessage_states]
      rcases List.mem_append.1 hm with hm | hm
      · exact covers (h.buffered message hm)
      · obtain rfl := List.mem_singleton.1 hm
        exact covers h.filling

theorem box_step (h : EchoSafe events core) (ledger : Ledger events core.box) {link : Link}
    {box : Outbox} (step : Outbox.Step link core.box es box) :
    EchoSafe (events ++ es) { core with box } := by
  cases step with
  | remark hr =>
    exact h.kept (Silent.of_remark hr).messagesSent rfl fun _ _ _ _ hf => hf
  | resize =>
    refine h.quiet rfl ?_ (fun _ _ _ _ hf => hf) h.filling fun _ hs => hs
    rintro acked (ha | ha)
    · exact .inl (.inl ha)
    · exact .inl (.inr (.inl ha))
  | send => exact h.send ledger link
  | drop =>
    refine h.quiet rfl ?_ (fun _ _ _ _ hf => hf) (fun acked ha => by cases ha)
      fun _ hs => by cases hs
    rintro acked (ha | ha)
    · exact .inl (.inl ha)
    · cases ha
  | push time center =>
    have fields : (core.box.pushFrame time center).toEcho = core.box.toEcho ∧
        ((core.box.pushFrame time center).echoed = core.box.echoed ∨
          (core.box.frames = [] ∧ (core.box.pushFrame time center).echoed = core.box.toEcho)) := by
      unfold Outbox.pushFrame
      split_ifs with hf
      · exact ⟨rfl, .inr ⟨List.isEmpty_iff.1 hf, rfl⟩⟩
      · exact ⟨rfl, .inl rfl⟩
    obtain ⟨toEcho, echoed⟩ := fields
    refine h.quiet rfl ?_ (fun _ _ _ _ hf => hf) ?_ ?_
    · rintro acked (ha | ha)
      · exact .inl (.inl (toEcho ▸ ha))
      · rcases echoed with he | ⟨_, he⟩
        · exact .inl (.inr (.inl (he ▸ ha)))
        · exact .inl (.inl (he ▸ ha))
    · rw [Outbox.pushFrame_buffered]
      rcases echoed with he | ⟨hf, _⟩
      · rw [he]
        exact h.filling
      · intro acked ha id version hc state hs
        simp [Outbox.buffered, hf] at hs
    · rw [Outbox.pushFrame_buffered]
      exact fun _ hs => hs

/-- An update or a removal leaves an object no older, and a new object is newer than all shown. -/
theorem input {shown current : Nat} {now : Time} (tidy : core.Tidy)
    (pacing : Pacing shown current events core) (hs : shown ≤ now.toNat)
    (ledger : Ledger events core.box) (h : EchoSafe events core)
    (step : Core.Input now core es next) : EchoSafe (events ++ es) next := by
  have silent := (step.silent tidy).messagesSent
  cases step with
  | remark => exact h.kept silent rfl fun _ _ _ _ hf => hf
  | @update entity id names _ assigned zone zoneId position rotation =>
    have follows := (core.table.getOrNew id entity).update_follows now zone zoneId position rotation
    refine h.kept silent rfl fun acked other version hc hf => hf.put fun hid => ?_
    rw [follows.netId, tidy.keyed.getOrNew] at hid
    subst hid
    have past : version ≤ now := by
      rw [UInt64.le_iff_toNat_le]
      exact Nat.le_of_lt (Nat.lt_of_lt_of_le (pacing.carried_lt ledger hc) hs)
    cases hg : core.table.get? id with
    | none =>
      rw [ReplicaTable.getOrNew_of_none hg] at follows ⊢
      refine ⟨?_, fun snapshot hk => by
        have hk := follows.kept snapshot hk
        rw [Replica.new_kept] at hk
        cases hk⟩
      rcases (Replica.new id entity core.table.historyCapacity).update_current now zone zoneId
        position rotation with ⟨_, stale⟩ | ⟨taken, _⟩
      · exact absurd stale (UInt64.not_lt.2 (UInt64.le_iff_toNat_le.2 (Nat.zero_le _)))
      · rw [Replica.version, taken]
        exact past
    | some replica =>
      obtain ⟨hv, hk⟩ := hf replica hg
      rw [ReplicaTable.getOrNew_of_some hg] at follows ⊢
      refine ⟨?_, fun snapshot hs => hk snapshot (follows.kept snapshot hs)⟩
      rcases replica.update_current now zone zoneId position rotation with ⟨same, _⟩ | ⟨taken, _⟩
      · rw [same]
        exact hv
      · rw [Replica.version, taken]
        exact past
  | @removal id replica held zone =>
    have follows := replica.removeFrom_follows now zone
    refine h.kept silent rfl fun acked other version hc hf => hf.put fun hid => ?_
    rw [follows.netId, tidy.keyed id replica held] at hid
    subst hid
    obtain ⟨hv, hk⟩ := hf replica held
    refine ⟨?_, fun snapshot hs => hk snapshot (follows.kept snapshot hs)⟩
    rcases replica.removeFrom_cases now zone with he | ⟨hle, he⟩
    · rw [he]
      exact hv
    · rw [he]
      exact UInt64.le_trans hv hle

/-- An acknowledgment that is echoed leaves the baselines at or past what was acknowledged. -/
theorem settle (tidy : core.Tidy) (ledger : Ledger events core.box) (h : EchoSafe events core)
    {id : MessageId} {record : SentRecord} {box : Outbox}
    (recorded : core.box.takeRecord id = some (record, box)) :
    EchoSafe (events ++ []) (core.settle record box) := by
  obtain ⟨found, rfl⟩ := Outbox.takeRecord_some recorded
  obtain ⟨rfl, message, hm, hid, hstates, _⟩ := ledger.recorded id record found
  obtain ⟨keyed, ordered, confirms⟩ :
      (core.table.commit record).value.2.Keyed ∧ (core.table.commit record).value.2.Sound ∧
        ReplicaTable.Confirms record.states core.table (core.table.commit record).value.2 :=
    ReplicaTable.commitStates_keeps tidy.keyed tidy.ordered
  have floor : ∀ acked id version, Carries events acked id version →
      AtLeast core.table id version → AtLeast (core.table.commit record).value.2 id version :=
    fun _ _ _ _ hf => hf.confirm confirms
  -- Only one message has the record's number, so its states are the ones just committed.
  have confirmed : (core.table.commit record).value.1.settled → ∀ id version,
      Carries events record.id id version →
      AtLeast (core.table.commit record).value.2 id version := by
    rintro settled id version ⟨other, ho, hoid, state, hs, hk⟩ replica hr
    obtain rfl := ledger.sent_inj ho hm (hoid.trans hid.symm)
    have carried : (id, version) ∈ record.states := by
      rw [hstates, ← hk]
      exact List.mem_map_of_mem hs
    obtain ⟨base, hb, hle⟩ :=
      ReplicaTable.commitStates_settled tidy.keyed tidy.ordered settled _ carried replica hr
    have sound := ordered id replica hr
    exact ⟨UInt64.le_trans hle (sound.baseline_le base hb),
      fun snapshot hs => UInt64.le_trans hle (sound.baseline_le_kept hb hs)⟩
  simp only [Core.settle]
  split_ifs with settled
  · refine h.quiet rfl ?_ floor ?_ ?_
    · rintro acked (ha | ha)
      · rcases Outbox.mem_echo ha with rfl | ha
        · exact .inr ⟨⟨message, hm, hid⟩, confirmed settled⟩
        · exact .inl (.inl (List.mem_filter.1 ha).1)
      · exact .inl (.inr (.inl ha))
    · rw [Outbox.echo_buffered]
      exact h.filling
    · rw [Outbox.echo_buffered]
      exact fun _ hs => hs
  · refine h.quiet rfl ?_ floor h.filling fun _ hs => hs
    rintro acked (ha | ha)
    · exact .inl (.inl (List.mem_filter.1 ha).1)
    · exact .inl (.inr (.inl ha))

/-- No echo is ahead of the baseline that an object is shown with. -/
theorem shownAt_covered (h : EchoSafe events core) {replica : Replica}
    (held : core.table.get? replica.netId = some replica) (now : Time) {echoed : List MessageId}
    (he : ∀ acked ∈ echoed, Echoed events core.box acked) :
    Covers events echoed [(replica.shownAt now).delta] := by
  intro acked ha id version hc state hs hid base hb
  obtain rfl := List.mem_singleton.1 hs
  rw [replica.shownAt_delta_netId] at hid
  rw [Replica.delta_baseline] at hb
  obtain ⟨snapshot, hs, rfl⟩ := Option.map_eq_some_iff.1 hb
  have hs := (replica.shownAt_follows now).baseline snapshot hs
  have floor := h.floor acked (he acked ha) id version hc replica (hid ▸ held)
  exact floor.2 snapshot (Replica.mem_kept.2 (.inl hs))

theorem queue (h : EchoSafe events core) {replica : Replica}
    (held : core.table.get? replica.netId = some replica) (opened : core.box.frames ≠ [])
    (now : Time) {event : Event} (silent : messagesSent [event] = []) :
    EchoSafe (events ++ [event]) { core with
      table := core.table.put (replica.emittedAt now)
      box := core.box.appendState (replica.shownAt now).delta } := by
  have sent : messagesSent (events ++ [event]) = messagesSent events := by simp [silent]
  have covers : ∀ echoed, (∀ acked ∈ echoed, Echoed events core.box acked) →
      Covers events echoed core.box.buffered →
      Covers (events ++ [event]) echoed
        (core.box.appendState (replica.shownAt now).delta).buffered := by
    intro echoed he hcov acked ha id version hc state hs
    rw [Carries, sent] at hc
    rw [Outbox.appendState_buffered opened] at hs
    rcases List.mem_append.1 hs with hs | hs
    · exact hcov acked ha id version hc state hs
    · exact h.shownAt_covered held now he acked ha id version hc state hs
  have echoed : ∀ acked, Echoed (events ++ [event])
      (core.box.appendState (replica.shownAt now).delta) acked → Echoed events core.box acked := by
    rintro acked (ha | ha | ha)
    · exact .inl ha
    · exact .inr (.inl ha)
    · rw [sent] at ha
      exact .inr (.inr ha)
  constructor
  · intro acked ha
    rw [sent]
    exact h.sent acked (echoed acked ha)
  · rw [sent]
    exact h.earlier
  · intro acked ha id version hc
    rw [Carries, sent] at hc
    exact (h.floor acked (echoed acked ha) id version hc).emit held now
  · exact covers _ (fun acked ha => .inr (.inl ha)) h.filling
  · rw [sent]
    exact fun message hm => covers _ (fun acked ha => .inr (.inr ⟨message, hm, ha⟩))
      (h.buffered message hm)
  · rw [sent]
    intro message hm next hn hle acked ha id version hc
    rw [Carries, sent] at hc
    exact h.later message hm next hn hle acked ha id version hc

theorem output {link : Link} {now : Time} {acked : List MessageId} (tidy : core.Tidy)
    (ledger : Ledger events core.box) (h : EchoSafe events core)
    (step : Core.Output link now acked core es next) : EchoSafe (events ++ es) next := by
  cases step with
  | outbox step => exact h.box_step ledger step
  | settle _ recorded => exact h.settle tidy ledger recorded
  | release => exact h.kept rfl rfl fun _ _ _ _ hf => hf
  | present held => exact h.kept rfl rfl fun _ _ _ _ hf => hf.emit held now
  | queue held opened => exact h.queue held opened now rfl
  | @reap replica held gone =>
    exact h.kept (Core.retire_silent _ _ _).messagesSent rfl fun _ _ _ _ hf => hf.erase _

theorem of_new (grid : Grid) (settings : Settings) :
    EchoSafe [] (Session.new grid settings).core := by
  constructor <;>
    simp [Echoed, Covers, Session.core, Session.new, Outbox.new]

end EchoSafe

structure Steady (shown current : Nat) (events : List Event) (core : Core) : Prop where
  pacing : Pacing shown current events core
  ledger : Few events → Ledger events core.box
  echoes : Few events → EchoSafe events core

namespace Steady

theorem keeps (posted : MessageId → Prop) : Pace.Keeps posted Steady where
  grow := fun hs hc h => ⟨h.pacing.grow hs hc, h.ledger, h.echoes⟩
  input := fun hs hc tidy h step => ⟨h.pacing.input tidy hs hc step,
    fun few => (h.ledger few.of_append).input tidy step,
    fun few => (h.echoes few.of_append).input tidy h.pacing hs (h.ledger few.of_append) step⟩
  output := fun _ tidy h step => ⟨h.pacing.output tidy step,
    fun few => (h.ledger few.of_append).output few step,
    fun few => (h.echoes few.of_append).output tidy (h.ledger few.of_append) step⟩
  boxed := fun _ h ⟨_, step, hn⟩ => hn ▸ ⟨h.pacing.box_step step,
    fun few => (h.ledger few.of_append).step few step,
    fun few => (h.echoes few.of_append).box_step (h.ledger few.of_append) step⟩

theorem of_new (grid : Grid) (settings : Settings) (shown current : Nat) :
    Steady shown current [] (Session.new grid settings).core :=
  ⟨.of_new grid settings shown current, fun _ => .of_new grid settings,
    fun _ => .of_new grid settings⟩

end Steady

namespace Session

/-- Whatever acknowledgments are posted: if a message echoes the acknowledgment of another, that
one was sent before, and no state from the echoing message on builds on a version older than one
that the acknowledged message carried. -/
theorem echoed_versions_stay_behind (grid : Grid) (settings : Settings)
    (calls : List (Link × Call)) (paced : Pace.Paced {} calls)
    (few : Few (play calls (new grid settings)).events) :
    ∀ earlier message later,
      messagesSent (play calls (new grid settings)).events = earlier ++ message :: later →
      ∀ acked ∈ message.echoed,
        (∃ carrier ∈ earlier, carrier.id = acked) ∧
        ∀ carrier ∈ messagesSent (play calls (new grid settings)).events, carrier.id = acked →
          ∀ carried ∈ carrier.states, ∀ state ∈ (message :: later).flatMap Message.states,
            state.netId = carried.netId → ∀ base, state.baseline = some base →
              carried.version ≤ base := by
  intro earlier message later split acked echo
  obtain ⟨shown, current, steady⟩ := (Steady.keeps _).play paced (new_tidy grid settings)
    (Steady.of_new grid settings _ _)
  rw [List.nil_append] at steady
  have ledger := steady.ledger few
  have safe := steady.echoes few
  have ascending := ledger.ascending
  rw [split, List.pairwise_append, List.pairwise_cons] at ascending
  obtain ⟨-, ⟨hlater, -⟩, hearlier⟩ := ascending
  have sent : message ∈ messagesSent (play calls (new grid settings)).events := by
    rw [split]
    simp
  refine ⟨?_, fun carrier hc hid carried hs state hstate hn base hb => ?_⟩
  · obtain ⟨carrier, hc, rfl⟩ := safe.sent acked (.inr (.inr ⟨message, sent, echo⟩))
    have lt := safe.earlier message sent carrier.id echo
    refine ⟨carrier, ?_, rfl⟩
    rw [split] at hc
    rcases List.mem_append.1 hc with hc | hc
    · exact hc
    · rcases List.mem_cons.1 hc with rfl | hc
      · exact absurd lt (UInt64.lt_irrefl _)
      · exact absurd (UInt64.lt_of_lt_of_le lt (UInt64.le_of_lt (hlater carrier hc)))
          (UInt64.lt_irrefl _)
  · obtain ⟨next, hnext, hstate⟩ := List.mem_flatMap.1 hstate
    have hle : message.id ≤ next.id := by
      rcases List.mem_cons.1 hnext with rfl | hnext
      · exact UInt64.le_rfl
      · exact UInt64.le_of_lt (hlater next hnext)
    have hnext : next ∈ messagesSent (play calls (new grid settings)).events := by
      rw [split]
      exact List.mem_append_right _ hnext
    exact safe.later message sent next hnext hle acked echo carried.netId carried.version
      ⟨carrier, hc, hid, carried, hs, rfl⟩ state hstate hn base hb

/-- Two ticks in which entity 7 is at the origin; the first message is acknowledged in between. -/
def answered : List (Link × Call) :=
  undisturbed [sightings 1 [7], .endFrame 1, .endBlock, .post ⟨0, 0, 0⟩,
    sightings 2 [7], .endFrame 2, .endBlock]

def introduction : Delta where
  netId := 1
  version := 1
  entity := some 7
  zoneId := some 0
  position := some .zero
  rotation := some .identity

def continuation : Delta := { netId := 1, version := 2, baseline := some 1 }

set_option maxRecDepth 4000 in
theorem echoed_versions_stay_behind_answered :
    messagesSent (play answered (new ⟨⟨.one, .one, .one⟩⟩ {})).events =
        [{ id := 0, sentAt := 0, frames := [{ time := 1, states := [introduction] }] },
          { id := 1, sentAt := 0, echoed := [0],
            frames := [{ time := 2, states := [continuation] }] }] ∧
      introduction.version ≤ 1 := by
  have paced : Pace.Paced {} answered := by
    simp [answered, undisturbed, sightings, Pace.Paced, Pace.Allows, Pace.Admits, Pace.after]
  have few : Few (play answered (new ⟨⟨.one, .one, .one⟩⟩ {})).events := by decide_cbv
  have sent : messagesSent (play answered (new ⟨⟨.one, .one, .one⟩⟩ {})).events =
      [{ id := 0, sentAt := 0, frames := [{ time := 1, states := [introduction] }] }] ++
        { id := 1, sentAt := 0, echoed := [0],
          frames := [{ time := 2, states := [continuation] }] } :: [] := by decide_cbv
  refine ⟨sent, ?_⟩
  obtain ⟨-, behind⟩ := echoed_versions_stay_behind _ _ answered paced few _ _ _ sent 0 (by simp)
  exact behind _ (by rw [sent]; exact List.mem_cons_self) rfl introduction
    (by simp [Message.states]) continuation (by simp [Message.states]) rfl 1 rfl

end Session

end AreaReplication
