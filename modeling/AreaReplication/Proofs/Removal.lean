import AreaReplication.Proofs.Play

/-!
# Removals are announced before objects are dropped

The end of a tick takes a removal down as sent when it makes the state, before the message being
filled has taken it. From then on every end of a tick that succeeds announces the removal; but if
all of them fail, the next one drops the object, and what it sends is the first that tells of it.
-/
namespace AreaReplication

namespace Replica

/-- How far a removal has come agrees with the current snapshot and with what was sent. -/
structure Staged (replica : Replica) : Prop where
  marked : replica.current.removed → replica.removal ≠ .active
  shown : replica.removalSentAt.isSome → replica.current.removed
  sent : replica.removal = .complete → replica.removalSentAt.isSome

variable {replica : Replica}

theorem new_staged (netId : NetId) (entity : EntityId) (capacity : Nat) :
    Staged (new netId entity capacity) := by
  constructor <;> simp [new]

theorem staged_of_marked {current : Snapshot} (removed : current.removed)
    (lastZone : Option Zone) : Staged { replica with current, lastZone, removal := .marked } where
  marked _ := by simp
  shown _ := removed
  sent complete := by simp at complete

theorem Staged.unsent (h : Staged replica) (active : replica.removal = .active) :
    replica.removalSentAt = none := by
  cases sent : replica.removalSentAt with
  | none => rfl
  | some time => exact absurd active (h.marked (h.shown (by rw [sent]; rfl)))

/-- An object that is there again starts over. -/
theorem Staged.revive (h : Staged replica) :
    replica.revive.removal = .active ∧ replica.revive.removalSentAt = none := by
  unfold Replica.revive
  split_ifs with active sent
  · exact ⟨active, h.unsent active⟩
  · exact ⟨rfl, rfl⟩
  · exact ⟨rfl, by simpa using sent⟩

section Changes

variable (time : Time) (zone : Zone)

theorem Staged.update_cases (h : Staged replica) (zoneId : UInt32) (position : Vec3)
    (rotation : Quat) :
    let updated := (replica.update time zone zoneId position rotation).value.2
    updated = replica ∨ (updated.current.removed = false ∧ updated.removal = .active ∧
      updated.removalSentAt = none) := by
  unfold update
  split_ifs
  · exact .inl rfl
  · exact .inr ⟨rfl, h.revive.1, h.revive.2⟩

theorem update_staged (h : Staged replica) (zoneId : UInt32) (position : Vec3) (rotation : Quat) :
    Staged (replica.update time zone zoneId position rotation).value.2 := by
  rcases h.update_cases time zone zoneId position rotation with he | ⟨shown, active, unsent⟩
  · rw [he]; exact h
  · constructor
    · simp [shown]
    · simp [unsent]
    · simp [active]

theorem removeFrom_staged (h : Staged replica) : Staged (replica.removeFrom time zone).2 := by
  rcases replica.removeFrom_cases time zone with he | ⟨_, he⟩
  · rw [he]; exact h
  · rw [he]; exact staged_of_marked rfl _

theorem removeFrom_removalSentAt :
    (replica.removeFrom time zone).2.removalSentAt = replica.removalSentAt := by
  rcases replica.removeFrom_cases time zone with he | ⟨_, he⟩ <;> rw [he]

theorem advanceRemoval_cases : replica.advanceRemoval time = replica ∨
    ∃ sent, replica.removal = .marked ∧ replica.removalSentAt = some sent ∧ sent < time ∧
      replica.advanceRemoval time = { replica with removal := .complete } := by
  unfold advanceRemoval
  split_ifs with due
  · obtain ⟨marked, before⟩ := due
    obtain ⟨sent, taken, earlier⟩ := (Option.any_eq_true _ _).1 before
    exact .inr ⟨sent, marked, taken, by simpa using earlier, rfl⟩
  · exact .inl rfl

theorem emit_removalSentAt : (replica.emit time).value.2.removalSentAt =
    if replica.current.removed && replica.removalSentAt.isNone then some time
    else replica.removalSentAt := rfl

theorem Staged.confirms {confirmed : Version → Prop} {after : Replica} (h : Staged replica)
    (confirms : Confirms confirmed replica after) : Staged after := by
  refine ⟨?_, ?_, ?_⟩
  · rw [confirms.current, confirms.removal]
    exact h.marked
  · rw [confirms.removalSentAt, confirms.current]
    exact h.shown
  · rw [confirms.removal, confirms.removalSentAt]
    exact h.sent

end Changes

/-- The object in the course of the end of the tick at `now`, where `before` says that its removal
had been taken down as sent before. -/
structure Ending (now : Time) (before : Prop) (replica : Replica) : Prop
    extends Staged replica where
  taken : ∀ time, replica.removalSentAt = some time → time = now ∨ before
  done : replica.removal = .complete → before

namespace Ending

variable {now : Time} {before : Prop}

theorem start (staged : Staged replica) : Ending now replica.removalSentAt.isSome replica :=
  { staged with
    taken := fun time h => .inr (by rw [h]; rfl)
    done := staged.sent }

theorem expire (h : Ending now before replica) : Ending now before (replica.expire now).2 := by
  rcases replica.expire_cases now with he | ⟨_, he⟩
  · rw [he]; exact h
  · rw [he]
    exact { staged_of_marked rfl _ with
      taken := h.taken
      done := fun complete => by simp at complete }

theorem advanceRemoval (h : Ending now before replica) :
    Ending now before (replica.advanceRemoval now) := by
  rcases replica.advanceRemoval_cases now with he | ⟨sent, _, taken, earlier, he⟩
  · rw [he]; exact h
  · -- What this tick takes down is not before `now`, so it cannot complete here.
    have already : before := (h.taken sent taken).resolve_left (by
      rintro rfl
      exact UInt64.lt_irrefl _ earlier)
    rw [he]
    exact {
      marked := fun _ => by simp
      shown := h.shown
      sent := fun _ => by rw [taken]; rfl
      taken := h.taken
      done := fun _ => already }

theorem emit (h : Ending now before replica) : Ending now before (replica.emit now).value.2 where
  marked := by
    rw [emit_current, emit_removal]
    exact h.marked
  shown := by
    rw [emit_removalSentAt, emit_current]
    split_ifs with first
    · exact fun _ => (Bool.and_eq_true_iff.1 first).1
    · exact h.shown
  sent := by
    rw [emit_removalSentAt, emit_removal]
    split_ifs
    · exact fun _ => rfl
    · exact h.sent
  taken := by
    rw [emit_removalSentAt]
    split_ifs
    · exact fun _ ht => .inl (Option.some.inj ht).symm
    · exact h.taken
  done := by
    rw [emit_removal]
    exact h.done

theorem emittedAt (h : Ending now before replica) : Ending now before (replica.emittedAt now) :=
  h.expire.advanceRemoval.emit

theorem confirms {confirmed : Version → Prop} {after : Replica} (h : Ending now before replica)
    (confirms : Confirms confirmed replica after) : Ending now before after := by
  refine { h.toStaged.confirms confirms with taken := ?_, done := ?_ }
  · rw [confirms.removalSentAt]
    exact h.taken
  · rw [confirms.removal]
    exact h.done

end Ending

end Replica

namespace ReplicaTable

def removalSent (table : ReplicaTable) (entity : EntityId) (id : NetId) : Bool :=
  (table.get? id).any fun replica => replica.entity = entity && replica.removalSentAt.isSome

def Staged (table : ReplicaTable) : Prop :=
  ∀ id replica, table.get? id = some replica → replica.Staged

variable {table : ReplicaTable} {entity : EntityId} {id : NetId}

theorem removalSent_iff : table.removalSent entity id ↔ ∃ replica,
    table.get? id = some replica ∧ replica.entity = entity ∧ replica.removalSentAt.isSome := by
  simp [removalSent, Option.any_eq_true]

/-- The objects of `start` in the course of the end of the tick at `now`. -/
structure Ending (now : Time) (start table : ReplicaTable) : Prop where
  replica : ∀ id replica, table.get? id = some replica →
    replica.Ending now (start.removalSent replica.entity id)
  kept : ∀ entity id, start.tracks entity id →
    table.tracks entity id ∨ start.removalSent entity id

namespace Ending

variable {now : Time} {start table : ReplicaTable} {replica : Replica}

theorem refl (staged : start.Staged) : Ending now start start where
  replica id replica held := by
    have same : start.removalSent replica.entity id = replica.removalSentAt.isSome := by
      simp [removalSent, held]
    rw [same]
    exact .start (staged id replica held)
  kept _ _ tracked := .inl tracked

theorem put (h : Ending now start table) {next : Replica}
    (held : table.get? replica.netId = some replica) (netId : next.netId = replica.netId)
    (entity : next.entity = replica.entity)
    (ending : next.Ending now (start.removalSent replica.entity replica.netId)) :
    Ending now start (table.put next) where
  replica id other ho := by
    rcases get?_put_some ho with ⟨hid, rfl⟩ | ⟨_, ho⟩
    · rw [hid, entity, netId]
      exact ending
    · exact h.replica id other ho
  kept owner id tracked := by
    refine (h.kept owner id tracked).imp_left fun tracks => ?_
    obtain ⟨other, ho, rfl⟩ := tracks_iff.1 tracks
    rw [tracks_iff]
    by_cases hid : replica.netId = id
    · subst hid
      obtain rfl : replica = other := Option.some.inj (held.symm.trans ho)
      exact ⟨next, by rw [get?_put, if_pos netId], entity⟩
    · exact ⟨other, by rw [get?_put, netId, if_neg hid, ho], rfl⟩

theorem confirms (h : Ending now start table) {states : List (NetId × Version)}
    {after : ReplicaTable} (confirms : Confirms states table after) : Ending now start after where
  replica id replica held := by
    obtain ⟨old, ho, hc⟩ := confirms.back held
    rw [hc.entity]
    exact (h.replica id old ho).confirms hc
  kept entity id tracked := (h.kept entity id tracked).imp_left confirms.tracks

theorem erase (h : Ending now start table) (held : table.get? replica.netId = some replica)
    (gone : replica.removal = .complete) : Ending now start (table.erase replica.netId) where
  replica id other ho := h.replica id other (get?_erase_some ho).2
  kept owner id tracked := by
    rcases h.kept owner id tracked with tracks | sent
    · obtain ⟨other, ho, rfl⟩ := tracks_iff.1 tracks
      by_cases hid : replica.netId = id
      · subst hid
        obtain rfl : replica = other := Option.some.inj (held.symm.trans ho)
        exact .inr ((h.replica _ _ held).done gone)
      · exact .inl (tracks_iff.2 ⟨other, by rw [get?_erase, if_neg hid, ho], rfl⟩)
    · exact .inr sent

end Ending

theorem Staged.getOrNew {table : ReplicaTable} (h : table.Staged) (id : NetId)
    (entity : EntityId) : (table.getOrNew id entity).Staged := by
  cases held : table.get? id with
  | none =>
    rw [getOrNew_of_none held]
    exact Replica.new_staged _ _ _
  | some replica =>
    rw [getOrNew_of_some held]
    exact h id replica held

/-- The objects of `start` in the course of an operation that is no end of a tick: it takes no
removal down as sent. -/
structure Outside (start table : ReplicaTable) : Prop where
  staged : table.Staged
  sent : ∀ entity id, table.removalSent entity id → start.removalSent entity id

theorem Outside.put {start table : ReplicaTable} (h : Outside start table) {next : Replica}
    (staged : next.Staged) (sent : next.removalSentAt.isSome →
      table.removalSent next.entity next.netId) : Outside start (table.put next) where
  staged id other ho := by
    rcases get?_put_some ho with ⟨_, rfl⟩ | ⟨_, ho⟩
    · exact staged
    · exact h.staged id other ho
  sent entity id hs := by
    obtain ⟨other, ho, rfl, taken⟩ := removalSent_iff.1 hs
    rcases get?_put_some ho with ⟨rfl, rfl⟩ | ⟨_, ho⟩
    · exact h.sent _ _ (sent taken)
    · exact h.sent _ _ (removalSent_iff.2 ⟨other, ho, rfl, taken⟩)

end ReplicaTable

namespace Core

variable {core next : Core} {events : List Event} {now : Time} {start : ReplicaTable}

theorem Input.outside (h : Input now core events next) (tidy : core.Tidy)
    (outside : ReplicaTable.Outside start core.table) :
    ReplicaTable.Outside start next.table := by
  cases h with
  | remark => exact outside
  | @update entity id _ _ _ zone zoneId position rotation =>
    have staged := outside.staged.getOrNew id entity
    refine outside.put (Replica.update_staged now zone staged zoneId position rotation) ?_
    rcases staged.update_cases now zone zoneId position rotation with same | ⟨_, _, unsent⟩
    · rw [same]
      intro taken
      cases held : core.table.get? id with
      | none =>
        rw [ReplicaTable.getOrNew_of_none held] at taken
        cases taken
      | some replica =>
        rw [ReplicaTable.getOrNew_of_some held] at taken ⊢
        rw [tidy.keyed id replica held]
        exact ReplicaTable.removalSent_iff.2 ⟨replica, held, rfl, taken⟩
    · rw [unsent]
      intro taken
      cases taken
  | @removal id replica held zone =>
    have follows := replica.removeFrom_follows now zone
    refine outside.put (Replica.removeFrom_staged now zone (outside.staged id replica held)) ?_
    rw [Replica.removeFrom_removalSentAt, follows.entity, follows.netId, tidy.keyed id replica held]
    exact fun taken => ReplicaTable.removalSent_iff.2 ⟨replica, held, rfl, taken⟩

theorem Output.ending {link : Link} {acked : List MessageId}
    (h : Output link now acked core events next) (tidy : core.Tidy)
    (ending : ReplicaTable.Ending now start core.table) :
    ReplicaTable.Ending now start next.table := by
  have emitted : ∀ replica, core.table.get? replica.netId = some replica →
      ReplicaTable.Ending now start (core.table.put (replica.emittedAt now)) :=
    fun replica held => ending.put held (replica.emittedAt_netId now) (replica.emittedAt_entity now)
      (ending.replica _ _ held).emittedAt
  cases h with
  | outbox | release => exact ending
  | settle => exact ending.confirms (ReplicaTable.commitStates_keeps tidy.keyed tidy.ordered).2.2
  | present held => exact emitted _ held
  | queue held => exact emitted _ held
  | reap held gone => exact ending.erase held gone

end Core

section Announcement

variable (link : Link) (now : Time)

/-- The message being filled took a state that shows the object of `entity` under `id` removed. -/
def Event.announces (entity : EntityId) (id : NetId) : Event → Bool
  | .queued _ shown _ state => shown = entity && state.netId = id && state.removed
  | _ => false

namespace Projection

theorem visit_table (walked : Walk) (replica : Replica) :
    (visit link now walked replica).value.2.table =
      walked.table.put (replica.emittedAt now) := by
  simp only [visit, Noted.value_bind]
  split <;> rfl

def Shows (now : Time) (replica : Replica) (events : List Event) : Prop :=
  ∃ message, .queued message replica.entity (replica.shownAt now).current
    (replica.shownAt now).delta ∈ events

theorem Shows.announces {now : Time} {replica : Replica} {events : List Event} {before : Prop}
    (shows : Shows now replica events) (ending : replica.Ending now before)
    (taken : (replica.emittedAt now).removalSentAt.isSome) :
    events.any (Event.announces replica.entity replica.netId) := by
  obtain ⟨message, queued⟩ := shows
  have removed := ending.emittedAt.shown taken
  rw [Replica.emittedAt_current] at removed
  have netId : (replica.shownAt now).netId = replica.netId := (replica.shownAt_follows now).netId
  refine List.any_eq_true.2 ⟨_, queued, ?_⟩
  simp [Event.announces, netId, removed]

theorem visit_shows {walked : Walk} {replica : Replica}
    (ok : (visit link now walked replica).value.1 = .ok ()) :
    Shows now replica (visit link now walked replica).events := by
  have shown : (ready now replica).value.2 = replica.shownAt now := rfl
  simp only [visit, Noted.value_bind, Noted.events_bind, Replica.emit_state, shown] at ok ⊢
  cases outcome : (walked.box.addState link (replica.shownAt now).delta).value.1 with
  | error error =>
    rw [outcome] at ok
    cases ok
  | ok =>
    have owner : (replica.shownAt now).entity = replica.entity :=
      (replica.shownAt_follows now).entity
    refine ⟨(walked.box.addState link (replica.shownAt now).delta).value.2.nextId, ?_⟩
    simp only [note, Noted.events_bind, Noted.events_pure, Replica.emit_entity,
      Replica.emit_current, owner, List.mem_append, List.mem_singleton, or_true, true_or]

theorem walk_get?_of_notMem (replicas : List Replica) (walked : Walk) {id : NetId}
    (fresh : id ∉ replicas.map Replica.netId) :
    (walk link now replicas walked).value.2.table.get? id = walked.table.get? id := by
  induction replicas generalizing walked with
  | nil => rfl
  | cons replica rest ih =>
    rw [List.map_cons, List.mem_cons, not_or] at fresh
    obtain ⟨other, fresh⟩ := fresh
    have visited : (visit link now walked replica).value.2.table.get? id =
        walked.table.get? id := by
      rw [visit_table, ReplicaTable.get?_put, Replica.emittedAt_netId, if_neg (Ne.symm other)]
    simp only [walk, Noted.value_bind]
    cases (visit link now walked replica).value.1 with
    | error error => exact visited
    | ok => exact (ih _ fresh).trans visited

/-- A walk that reaches the end has shown every object. -/
theorem walk_shows {replicas : List Replica} {walked : Walk}
    (distinct : (replicas.map Replica.netId).Nodup)
    (ok : (walk link now replicas walked).value.1 = .ok ()) :
    ∀ replica ∈ replicas, Shows now replica (walk link now replicas walked).events ∧
      (walk link now replicas walked).value.2.table.get? replica.netId =
        some (replica.emittedAt now) := by
  induction replicas generalizing walked with
  | nil => simp
  | cons replica rest ih =>
    obtain ⟨fresh, distinct⟩ := List.nodup_cons.1 distinct
    simp only [walk, Noted.value_bind, Noted.events_bind] at ok ⊢
    cases outcome : (visit link now walked replica).value.1 with
    | error error =>
      rw [outcome] at ok
      cases ok
    | ok =>
      simp only [outcome] at ok ⊢
      intro other ho
      rcases List.mem_cons.1 ho with rfl | ho
      · obtain ⟨message, shown⟩ := visit_shows link now outcome
        refine ⟨⟨message, List.mem_append_left _ shown⟩, ?_⟩
        rw [walk_get?_of_notMem link now rest _ fresh, visit_table, ReplicaTable.get?_put,
          Replica.emittedAt_netId, if_pos rfl]
      · obtain ⟨⟨message, shown⟩, table⟩ := ih distinct ok other ho
        exact ⟨⟨message, List.mem_append_right _ shown⟩, table⟩

theorem walk_get?_isSome (replicas : List Replica) (walked : Walk) {id : NetId}
    (held : (walked.table.get? id).isSome) :
    ((walk link now replicas walked).value.2.table.get? id).isSome := by
  induction replicas generalizing walked with
  | nil => exact held
  | cons replica rest ih =>
    have visited : ((visit link now walked replica).value.2.table.get? id).isSome := by
      rw [visit_table, ReplicaTable.get?_put]
      split_ifs
      · rfl
      · exact held
    simp only [walk, Noted.value_bind]
    cases (visit link now walked replica).value.1 with
    | error error => exact visited
    | ok => exact ih _ visited

theorem reap_get? (watermark : MessageId) (ids : List NetId) (table : ReplicaTable) (names : Names)
    (id : NetId) : (reap watermark ids table names).value.1.get? id =
      if id ∈ ids then none else table.get? id := by
  induction ids generalizing table names with
  | nil => simp [reap]
  | cons gone rest ih =>
    have rested : (reap watermark (gone :: rest) table names).value.1.get? id =
        if id ∈ rest then none else (table.erase gone).get? id := by
      cases found : table.get? gone with
      | none => simpa only [reap, found, Noted.value_bind] using ih _ _
      | some replica => simpa only [reap, found, Noted.value_bind] using ih _ _
    rw [rested, ReplicaTable.get?_erase]
    by_cases first : gone = id
    · simp [first]
    · simp [first, Ne.symm first]

/-- A projection that succeeds shows every object, and drops those whose removal is complete. -/
theorem project_get? {table : ReplicaTable} {names : Names} {box : Outbox} (keyed : table.Keyed)
    {summary : ProjectionSummary}
    (ok : (project link now table names box).value.1 = .ok summary) (id : NetId) :
    let left := (project link now table names box).value.2.1.get? id
    (table.get? id = none ∧ left = none) ∨ ∃ replica, table.get? id = some replica ∧
      Shows now replica (project link now table names box).events ∧
      (left = some (replica.emittedAt now) ∨
        left = none ∧ (replica.emittedAt now).removal = .complete) := by
  simp only [project, Noted.value_bind, Noted.events_bind] at ok ⊢
  cases outcome : (walk link now table.toList { table, box }).value.1 with
  | error error =>
    rw [outcome] at ok
    cases ok
  | ok =>
    have ahead := (Session.walk_path link now [] names _ _ (.start keyed box)).2 outcome
    simp only [Noted.value_bind, Noted.value_pure, Noted.events_bind, reap_get?, List.mem_reverse]
    cases before : table.get? id with
    | none =>
      have fresh : id ∉ table.toList.map Replica.netId := by
        intro hm
        obtain ⟨replica, hr, rfl⟩ := List.mem_map.1 hm
        rw [(ReplicaTable.mem_toList keyed).1 hr] at before
        cases before
      rw [walk_get?_of_notMem link now _ _ fresh, before]
      exact .inl ⟨rfl, ite_self none⟩
    | some replica =>
      obtain rfl := keyed id replica before
      obtain ⟨⟨message, shows⟩, emitted⟩ :=
        walk_shows link now (ReplicaTable.toList_distinct keyed) outcome replica
          ((ReplicaTable.mem_toList keyed).2 before)
      refine .inr ⟨replica, rfl, ⟨message, List.mem_append_left _ shows⟩, ?_⟩
      split_ifs with listed
      · obtain ⟨gone, held, complete⟩ := ahead.complete _ listed
        obtain rfl : replica.emittedAt now = gone := Option.some.inj (emitted.symm.trans held)
        exact .inr ⟨rfl, complete⟩
      · exact .inl emitted

/-- A projection that fails drops nothing. -/
theorem project_get?_isSome {table : ReplicaTable} {names : Names} {box : Outbox}
    {error : SendError} (failed : (project link now table names box).value.1 = .error error)
    {id : NetId} (held : (table.get? id).isSome) :
    ((project link now table names box).value.2.1.get? id).isSome := by
  have walked := walk_get?_isSome link now table.toList { table, box } held
  simp only [project, Noted.value_bind] at failed ⊢
  cases outcome : (walk link now table.toList { table, box }).value.1 with
  | error error => exact walked
  | ok =>
    simp only [outcome] at failed
    cases failed

end Projection

end Announcement

namespace Session

open AreaReplication.Core

variable {link : Link} {now : Time} {session : Session}

namespace Ended

variable {outcome : Except SendError Unit} {events : List Event} {next : Core} {entity : EntityId}
  {id : NetId}

theorem opened {names : Names} {table : ReplicaTable} {box : Outbox} {started : List Event}
    (path : Path (Output link now (session.intake.queue.map Ack.id)) session.core started
      ⟨names, table, box⟩) (tidy : session.core.Tidy) (staged : session.table.Staged) :
    table.Keyed ∧ ReplicaTable.Ending now session.table table := by
  have kept := path.keeps
    (P := fun _ core => core.Tidy ∧ ReplicaTable.Ending now session.table core.table)
    (fun _ _ _ _ h step => ⟨step.tidy h.1, step.ending h.1 h.2⟩) [] ⟨tidy, .refl staged⟩
  exact ⟨kept.1.keyed, kept.2⟩

/-- The end of a tick succeeds only if all that is then taken down as sent has been announced. -/
theorem announces (h : Ended link now session outcome events next) (tidy : session.core.Tidy)
    (staged : session.table.Staged) (ok : outcome = .ok ())
    (sent : next.table.removalSent entity id) : events.any (Event.announces entity id) := by
  cases h with
  | unopened => cases ok
  | @projected names table box _ _ path =>
    cases projected : (Projection.project link now table names box).value.1 with
    | error error =>
      rw [projected] at ok
      cases ok
    | ok summary =>
      obtain ⟨keyed, ending⟩ := opened path tidy staged
      obtain ⟨shown, held, rfl, taken⟩ := ReplicaTable.removalSent_iff.1 sent
      rcases Projection.project_get? link now keyed projected id with
        ⟨_, absent⟩ | ⟨replica, before, shows, left | ⟨absent, _⟩⟩
      · cases absent.symm.trans held
      · obtain rfl := Option.some.inj (left.symm.trans held)
        obtain rfl := keyed id replica before
        have announced := shows.announces (ending.replica _ replica before) taken
        simp [announced]
      · cases absent.symm.trans held

/-- The end of a tick that drops an object has announced its removal. -/
theorem drops_announces (h : Ended link now session outcome events next) (tidy : session.core.Tidy)
    (staged : session.table.Staged) (tracked : session.table.tracks entity id)
    (gone : next.table.get? id = none) : events.any (Event.announces entity id) := by
  cases h with
  | unopened _ kept =>
    obtain ⟨replica, held, -⟩ := ReplicaTable.tracks_iff.1 (kept entity id tracked)
    cases gone.symm.trans held
  | @projected names table box _ _ path kept =>
    obtain ⟨old, held, rfl⟩ := ReplicaTable.tracks_iff.1 (kept entity id tracked)
    cases projected : (Projection.project link now table names box).value.1 with
    | error error =>
      have left := Projection.project_get?_isSome link now projected (by rw [held]; rfl)
      rw [gone] at left
      cases left
    | ok summary =>
      obtain ⟨keyed, ending⟩ := opened path tidy staged
      obtain rfl := keyed id old held
      rcases Projection.project_get? link now keyed projected old.netId with
        ⟨absent, _⟩ | ⟨replica, before, shows, left | ⟨_, complete⟩⟩
      · cases absent.symm.trans held
      · cases gone.symm.trans left
      · obtain rfl := Option.some.inj (held.symm.trans before)
        have ending := ending.replica _ old held
        have announced := shows.announces ending (ending.emittedAt.sent complete)
        simp [announced]

end Ended

theorem endFrame_ending (link : Link) (tidy : session.core.Tidy) (staged : session.table.Staged) :
    ReplicaTable.Ending now session.table (session.endFrame link now).value.2.table :=
  (run_keeps (P := fun _ core => ReplicaTable.Ending now session.table core.table)
    (.endFrame now) [] (fun _ _ _ _ tidy ending step => Output.ending step tidy ending) tidy
    (.refl staged)).2

/-- An operation other than the end of a tick. -/
theorem run_outside {call : Call} (other : ∀ time, call ≠ .endFrame time)
    (tidy : session.core.Tidy) (staged : session.table.Staged) :
    ReplicaTable.Outside session.table (session.run link call).value.2.table := by
  refine (run_keeps (P := fun _ core => ReplicaTable.Outside session.table core.table) call []
    ?_ tidy ⟨staged, fun _ _ h => h⟩).2
  intro _ core es next tidy outside step
  cases call with
  | stateChanged => exact Input.outside step tidy outside
  | endFrame time => exact absurd rfl (other time)
  | _ =>
    obtain ⟨box, -, rfl⟩ := step
    exact outside

namespace Turn

variable (turn : Turn) (entity : EntityId) (id : NetId)

/-- The operation drops the object that `entity` has under `id`. -/
def drops : Bool := turn.before.table.tracks entity id && (turn.after.table.get? id).isNone

def takesDown : Bool :=
  !turn.before.table.removalSent entity id && turn.after.table.removalSent entity id

def announces : Bool := turn.events.any (Event.announces entity id)

end Turn

/-- An end of a tick took the removal of the object that `entity` has under `id` down as sent, and
every end of a tick from that one on has announced the removal or failed. -/
def TakenDown (past : List Turn) (entity : EntityId) (id : NetId) : Prop :=
  ∃ earlier first rest sent, past = earlier ++ first :: rest ∧ first.call = .endFrame sent ∧
    first.takesDown entity id ∧ ∀ turn ∈ first :: rest, ∀ time, turn.call = .endFrame time →
      turn.announces entity id ∨ ∃ error, turn.outcome = .error error

structure Accounted (past : List Turn) (session : Session) : Prop where
  staged : session.table.Staged
  sent : ∀ entity id, session.table.removalSent entity id → TakenDown past entity id

variable {past : List Turn} {turn : Turn} {entity : EntityId} {id : NetId}

theorem Turn.announces_or_fails (tidy : turn.before.core.Tidy)
    (staged : turn.before.table.Staged) (sent : turn.after.table.removalSent entity id)
    (time : Time) (ended : turn.call = .endFrame time) :
    turn.announces entity id ∨ ∃ error, turn.outcome = .error error := by
  obtain ⟨link, before, call⟩ := turn
  subst ended
  cases outcome : (before.endFrame link time).value.1 with
  | error error => exact .inr ⟨error, outcome⟩
  | ok => exact .inl ((endFrame_ended link time before tidy).announces tidy staged outcome sent)

theorem TakenDown.concat (h : TakenDown past entity id)
    (next : ∀ time, turn.call = .endFrame time →
      turn.announces entity id ∨ ∃ error, turn.outcome = .error error) :
    TakenDown (past ++ [turn]) entity id := by
  obtain ⟨earlier, first, rest, sent, rfl, call, takes, since⟩ := h
  refine ⟨earlier, first, rest ++ [turn], sent, by simp, call, takes, fun other ho => ?_⟩
  rw [← List.cons_append, List.mem_append, List.mem_singleton] at ho
  rcases ho with ho | rfl
  · exact since other ho
  · exact next

theorem Accounted.step (h : Accounted past turn.before) (tidy : turn.before.core.Tidy) :
    Accounted (past ++ [turn]) turn.after := by
  have outside : (∀ time, turn.call ≠ .endFrame time) →
      ReplicaTable.Outside turn.before.table turn.after.table :=
    fun other => run_outside other tidy h.staged
  constructor
  · by_cases other : ∀ time, turn.call ≠ .endFrame time
    · exact (outside other).staged
    · push Not at other
      obtain ⟨time, ended⟩ := other
      have ending : ReplicaTable.Ending time turn.before.table turn.after.table := by
        rw [Turn.after, ended]
        exact endFrame_ending _ tidy h.staged
      exact fun id replica held => (ending.replica id replica held).toStaged
  · intro entity id sent
    have next := turn.announces_or_fails tidy h.staged sent
    by_cases before : turn.before.table.removalSent entity id
    · exact (h.sent entity id before).concat next
    · -- The removal was not taken down before, so this is an end of a tick, and the first.
      have ended : ∃ time, turn.call = .endFrame time := by
        by_contra other
        push Not at other
        exact before ((outside other).sent entity id sent)
      obtain ⟨time, ended⟩ := ended
      refine ⟨past, turn, [], time, rfl, ended, ?_, fun other ho => ?_⟩
      · simp [Turn.takesDown, before, sent]
      · obtain rfl := List.mem_singleton.1 ho
        exact next

theorem turns_accounted (grid : Grid) (settings : Settings) (calls : List (Link × Call)) :
    (play calls (new grid settings)).value.core.Tidy ∧
      Accounted (turns calls (new grid settings)) (play calls (new grid settings)).value := by
  have empty := ReplicaTable.get?_empty settings.historyCapacity
  have start : Accounted [] (new grid settings) := by
    refine ⟨fun id replica held => absurd held (empty id replica), fun entity id sent => ?_⟩
    obtain ⟨replica, held, -⟩ := ReplicaTable.removalSent_iff.1 sent
    exact absurd held (empty id replica)
  exact turns_keep (fun _ _ tidy h => h.step tidy) calls (new_tidy grid settings) start

/-- An object is dropped only by an end of a tick that announces its removal itself, and only after
an earlier one took the removal down as sent. Each from that one on has announced the removal or
failed: it comes unannounced only if all of them failed. -/
theorem removals_announced_or_failed (grid : Grid) (settings : Settings)
    (calls : List (Link × Call)) (link : Link) (time : Time) (entity : EntityId) (id : NetId) :
    let last : Turn := ⟨link, (play calls (new grid settings)).value, .endFrame time⟩
    last.drops entity id →
      last.announces entity id ∧ TakenDown (turns calls (new grid settings)) entity id := by
  intro last dropped
  obtain ⟨tidy, accounted⟩ := turns_accounted grid settings calls
  obtain ⟨tracked, gone⟩ := Bool.and_eq_true_iff.1 dropped
  have gone : last.after.table.get? id = none := Option.isNone_iff_eq_none.1 gone
  refine ⟨(endFrame_ended link time _ tidy).drops_announces tidy accounted.staged tracked gone, ?_⟩
  have ending : ReplicaTable.Ending time last.before.table last.after.table :=
    endFrame_ending link tidy accounted.staged
  rcases ending.kept entity id tracked with kept | sent
  · obtain ⟨replica, held, -⟩ := ReplicaTable.tracks_iff.1 kept
    cases gone.symm.trans held
  · exact accounted.sent entity id sent

/-- Entity 7 is not seen again: tick 2 announces its removal and tick 3 drops it. -/
def leaving : List (Link × Call) := undisturbed [sightings 1 [7], .endFrame 1, .endFrame 2]

theorem removals_announced_or_failed_leaving :
    Turn.drops ⟨Line.link {}, (play leaving (new ⟨⟨.one, .one, .one⟩⟩ {})).value, .endFrame 3⟩ 7 1 ∧
      ∃ turn ∈ turns leaving (new ⟨⟨.one, .one, .one⟩⟩ {}), turn.announces 7 1 := by
  have dropped : Turn.drops
      ⟨Line.link {}, (play leaving (new ⟨⟨.one, .one, .one⟩⟩ {})).value, .endFrame 3⟩ 7 1 := by
    decide_cbv
  obtain ⟨-, earlier, first, rest, sent, run, call, -, since⟩ :=
    removals_announced_or_failed _ _ leaving _ _ _ _ dropped
  have taken : first ∈ turns leaving (new ⟨⟨.one, .one, .one⟩⟩ {}) := by simp [run]
  have succeeded : ∀ turn ∈ turns leaving (new ⟨⟨.one, .one, .one⟩⟩ {}),
      turn.outcome.isOk := by decide_cbv
  refine ⟨dropped, first, taken, (since first List.mem_cons_self sent call).resolve_right ?_⟩
  rintro ⟨error, failed⟩
  have ok := succeeded first taken
  rw [failed] at ok
  cases ok

/-- Entity 7 is not seen again, and tick 2 takes its removal down but fails, because no state fits
into a message. -/
def squeezed : List (Link × Call) :=
  undisturbed [sightings 1 [7], .endFrame 1, .endBlock, .setSizeLimit 1, .endFrame 2,
    .setSizeLimit 1500]

theorem dropped_unannounced :
    Pace.Paced {} (squeezed ++ undisturbed [.endFrame 3]) ∧
      Turn.drops ⟨Line.link {}, (play squeezed (new ⟨⟨.one, .one, .one⟩⟩ {})).value, .endFrame 3⟩
        7 1 ∧
      (play squeezed (new ⟨⟨.one, .one, .one⟩⟩ {})).events.any (Event.announces 7 1) = false := by
  refine ⟨?_, by decide_cbv, by decide_cbv⟩
  simp [squeezed, undisturbed, sightings, Pace.Paced, Pace.Allows, Pace.Admits, Pace.after]

end Session

end AreaReplication
