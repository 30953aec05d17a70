import AreaReplication.Proofs.TickEnd

/-!
# The ids in use are the ids of the objects

An update gives out an id where it makes an object, and the end of a tick takes the id away where it
drops the object. Neither is left halfway, not even by an end of a tick that fails. The numbers of
messages only go up, and so do the watermarks under which ids go into quarantine.
-/
namespace AreaReplication

/-- An id that is given back, and the table of names that it is given back to. -/
structure Retirement where
  names : Names
  id : NetId
  watermark : MessageId

def Retirement.perform (names : Names) (retirement : Retirement) : Names :=
  (names.retire retirement.id retirement.watermark).value

/-- The id is in use, and what went into quarantine last has no later watermark. -/
def Retirement.InOrder (retirement : Retirement) : Prop :=
  (retirement.names.entityOf? retirement.id).isSome ∧
    ∀ last ∈ retirement.names.quarantine.head?, last.1 ≤ retirement.watermark

namespace Projection

def retirements (watermark : MessageId) : List NetId → Names → List Retirement
  | [], _ => []
  | id :: rest, names =>
    ⟨names, id, watermark⟩ :: retirements watermark rest (names.retire id watermark).value

theorem reap_names (watermark : MessageId) (ids : List NetId) (table : ReplicaTable)
    (names : Names) : (reap watermark ids table names).value.2 =
      (retirements watermark ids names).foldl Retirement.perform names := by
  induction ids generalizing table names with
  | nil => rfl
  | cons id rest ih =>
    rw [retirements, List.foldl_cons, Retirement.perform]
    cases found : table.get? id with
    | none => simpa only [reap, found, Noted.value_bind] using ih _ _
    | some replica => simpa only [reap, found, Noted.value_bind] using ih _ _

theorem retirements_watermark {watermark : MessageId} {ids : List NetId} {names : Names}
    {retirement : Retirement} (h : retirement ∈ retirements watermark ids names) :
    retirement.watermark = watermark := by
  induction ids generalizing names with
  | nil => cases h
  | cons id rest ih =>
    rcases List.mem_cons.1 h with rfl | h
    · rfl
    · exact ih h

theorem retirements_inOrder {watermark : MessageId} {ids : List NetId} {names : Names}
    (once : ids.Nodup) (used : ∀ id ∈ ids, (names.entityOf? id).isSome)
    (newest : ∀ last ∈ names.quarantine.head?, last.1 ≤ watermark) :
    ∀ retirement ∈ retirements watermark ids names, retirement.InOrder := by
  induction ids generalizing names with
  | nil => nofun
  | cons id rest ih =>
    obtain ⟨fresh, once⟩ := List.nodup_cons.1 once
    have first := used id List.mem_cons_self
    intro retirement hr
    rcases List.mem_cons.1 hr with rfl | hr
    · exact ⟨first, newest⟩
    · obtain ⟨entity, owned⟩ := Option.isSome_iff_exists.1 first
      refine ih once (fun other ho => ?_) ?_ retirement hr
      · have apart : id ≠ other := fun same => fresh (same ▸ ho)
        rw [Names.retire_entityOf?, if_neg apart]
        exact used other (List.mem_cons_of_mem _ ho)
      · rw [Names.retire_quarantine watermark owned]
        rintro last ⟨⟩
        exact UInt64.le_rfl

end Projection

namespace Core

/-- Every id in use has an object, and no quarantined id has a watermark yet to come. -/
structure Matched (core : Core) : Prop where
  held : ∀ id entity, core.names.entityOf? id = some entity → (core.table.get? id).isSome
  marks : ∀ entry ∈ core.names.quarantine, entry.1 ≤ core.box.nextId

variable {core next : Core} {events : List Event} {link : Link} {now : Time}
  {acked : List MessageId}

theorem Output.nextId_le (step : Output link now acked core events next) :
    core.box.nextId ≤ next.box.nextId := by
  cases step with
  | outbox step => exact step.later.number
  | settle _ recorded =>
    obtain ⟨-, rfl⟩ := Outbox.takeRecord_some recorded
    simp only [Core.settle]
    split_ifs <;> exact UInt64.le_rfl
  | release | present | queue | reap => exact UInt64.le_rfl

theorem Matched.put (h : core.Matched) (replica : Replica) (box : Outbox)
    (number : core.box.nextId ≤ box.nextId) :
    Matched { core with table := core.table.put replica, box } where
  held id entity used := by
    rw [ReplicaTable.get?_put]
    split_ifs
    · rfl
    · exact h.held id entity used
  marks entry quarantined := UInt64.le_trans (h.marks entry quarantined) number

theorem Input.matched (step : Input now core events next) (tidy : core.Tidy)
    (h : core.Matched) : next.Matched := by
  cases step with
  | remark => exact h
  | @update entity id names _ assigned zone zoneId position rotation =>
    have owners := (Names.assign_entityOf? tidy.names assigned).2
    have quarantine := core.names.assign_quarantine entity
    have follows := (core.table.getOrNew id entity).update_follows now zone zoneId position rotation
    rw [assigned] at quarantine
    refine ⟨fun other owner used => ?_, fun entry quarantined => ?_⟩
    · rw [ReplicaTable.get?_put, follows.netId, tidy.keyed.getOrNew]
      by_cases same : id = other
      · rw [if_pos same]
        rfl
      · rw [if_neg same]
        rw [owners other (Ne.symm same)] at used
        exact h.held other owner used
    · exact h.marks entry (quarantine ▸ quarantined)
  | removal held zone => exact h.put _ core.box UInt64.le_rfl

theorem Output.matched (step : Output link now acked core events next) (tidy : core.Tidy)
    (h : core.Matched) : next.Matched := by
  have number := step.nextId_le
  have marks : ∀ entry ∈ core.names.quarantine, entry.1 ≤ next.box.nextId :=
    fun entry quarantined => UInt64.le_trans (h.marks entry quarantined) number
  cases step with
  | outbox => exact ⟨h.held, marks⟩
  | @settle _ record =>
    have confirms : ReplicaTable.Confirms record.states core.table
        (core.table.commit record).value.2 :=
      (ReplicaTable.commitStates_keeps tidy.keyed tidy.ordered).2.2
    exact ⟨fun id entity used => (confirms.same id).trans (h.held id entity used), marks⟩
  | release =>
    refine ⟨h.held, fun entry quarantined => marks entry ?_⟩
    rw [core.names.release_quarantine core.box.settledBefore]
    exact List.mem_append_left _ quarantined
  | present held => exact h.put _ core.box number
  | queue held opened => exact h.put _ _ number
  | @reap replica held gone =>
    have owned := tidy.tracked _ replica held
    refine ⟨fun id entity used => ?_, fun entry quarantined => ?_⟩
    · rw [Names.retire_entityOf?] at used
      rw [ReplicaTable.get?_erase]
      split_ifs at used ⊢ with dropped
      exact h.held id entity used
    · rw [Names.retire_quarantine core.box.nextId owned] at quarantined
      rcases List.mem_cons.1 quarantined with rfl | quarantined
      · exact UInt64.le_rfl
      · exact marks entry quarantined

end Core

theorem Session.Call.Step.matched {link : Link} {acked : List MessageId} {call : Session.Call}
    {core next : Core} {events : List Event} (step : call.Step link acked core events next)
    (tidy : core.Tidy) (h : core.Matched) : next.Matched ∧ core.box.nextId ≤ next.box.nextId := by
  cases call with
  | stateChanged block =>
    have step : Core.Input block.time core events next := step
    rw [step.box]
    exact ⟨step.matched tidy h, UInt64.le_rfl⟩
  | endFrame time =>
    have step : Core.Output link time acked core events next := step
    exact ⟨step.matched tidy h, step.nextId_le⟩
  | _ =>
    obtain ⟨box, step, rfl⟩ := step
    have number := step.later.number
    exact ⟨⟨h.held, fun entry hq => UInt64.le_trans (h.marks entry hq) number⟩, number⟩

namespace Session

open AreaReplication.Core

namespace Turn

def retirements (turn : Turn) : List Retirement :=
  match turn.call with
  | .endFrame time =>
    match (turn.before.sweep turn.link time).value with
    | (.error _, _) => []
    | (.ok (), walked) =>
      Projection.retirements walked.box.nextId walked.complete.reverse turn.before.namesAtSweep
  | _ => []

variable {turn : Turn}

theorem retirements_names {time : Time} (ended : turn.call = .endFrame time) :
    turn.after.names = turn.retirements.foldl Retirement.perform turn.before.namesAtSweep := by
  obtain ⟨link, session, call⟩ := turn
  subst ended
  have swept := session.endFrame_swept link time
  simp only [after, run, retirements]
  generalize (session.endFrame link time).value = ended at swept ⊢
  generalize (session.sweep link time).value = result at swept ⊢
  cases swept with
  | broken core => exact congrArg Core.names core
  | finished _ core => exact (congrArg Core.names core).trans (Projection.reap_names _ _ _ _)

/-- Ids are given back under the number of the message being filled. -/
theorem retirements_watermark {retirement : Retirement} (h : retirement ∈ turn.retirements) :
    retirement.watermark = turn.after.outbox.nextId := by
  obtain ⟨link, session, call⟩ := turn
  cases call with
  | endFrame time =>
    have swept := session.endFrame_swept link time
    simp only [after, run, retirements] at h ⊢
    generalize (session.endFrame link time).value = ended at swept ⊢
    generalize (session.sweep link time).value = result at swept h
    cases swept with
    | broken => cases h
    | finished _ core =>
      rw [Projection.retirements_watermark h]
      exact congrArg (fun core => core.box.nextId) core.symm
  | _ => cases h

theorem retirements_inOrder (tidy : turn.before.core.Tidy) (matched : turn.before.core.Matched) :
    ∀ retirement ∈ turn.retirements,
      retirement.InOrder ∧ turn.before.outbox.nextId ≤ retirement.watermark := by
  obtain ⟨link, session, call⟩ := turn
  cases call with
  | endFrame time =>
    obtain ⟨⟨events, path⟩, ahead⟩ := session.sweep_path link time tidy
    have kept := path.keeps (P := fun _ core => core.Tidy ∧ core.Matched ∧
        session.outbox.nextId ≤ core.box.nextId)
      (fun _ _ _ _ h step => ⟨step.tidy h.1, step.matched h.1 h.2.1,
        UInt64.le_trans h.2.2 step.nextId_le⟩) [] ⟨tidy, matched, UInt64.le_rfl⟩
    intro retirement hr
    simp only [retirements] at hr
    generalize (session.sweep link time).value = result at ahead kept hr
    obtain ⟨tidy, matched, number⟩ := kept
    obtain ⟨outcome, walked⟩ := result
    cases outcome with
    | error error => cases hr
    | ok =>
      have visited := ahead rfl
      rw [Projection.retirements_watermark hr]
      refine ⟨Projection.retirements_inOrder (List.nodup_reverse.2 visited.once) ?_ ?_ _ hr, number⟩
      · intro id hid
        obtain ⟨replica, held, -⟩ := visited.complete id (List.mem_reverse.1 hid)
        have owned := tidy.tracked id replica held
        rw [owned]
        rfl
      · intro last hl
        exact matched.marks last (List.mem_of_mem_head? hl)
  | _ => nofun

end Turn

structure Retired (past : List Turn) (session : Session) : Prop where
  matched : session.core.Matched
  inOrder : ∀ retirement ∈ past.flatMap Turn.retirements, retirement.InOrder
  reached : ∀ retirement ∈ past.flatMap Turn.retirements,
    retirement.watermark ≤ session.outbox.nextId
  rising : (past.flatMap Turn.retirements).Pairwise fun earlier later =>
    earlier.watermark ≤ later.watermark

theorem Retired.step {past : List Turn} {turn : Turn} (h : Retired past turn.before)
    (tidy : turn.before.core.Tidy) : Retired (past ++ [turn]) turn.after := by
  have known := turn.retirements_inOrder tidy h.matched
  obtain ⟨matched, number⟩ : turn.after.core.Matched ∧
      turn.before.outbox.nextId ≤ turn.after.outbox.nextId := by
    refine (run_keeps (P := fun _ core => core.Matched ∧
      turn.before.outbox.nextId ≤ core.box.nextId) turn.call [] ?_ tidy
      ⟨h.matched, UInt64.le_rfl⟩).2
    intro _ _ _ _ tidy kept step
    obtain ⟨matched, number⟩ := step.matched tidy kept.1
    exact ⟨matched, UInt64.le_trans kept.2 number⟩
  have split : (past ++ [turn]).flatMap Turn.retirements =
      past.flatMap Turn.retirements ++ turn.retirements := by simp
  refine ⟨matched, ?_, ?_, ?_⟩ <;> rw [split]
  · intro retirement hr
    rcases List.mem_append.1 hr with hr | hr
    · exact h.inOrder retirement hr
    · exact (known retirement hr).1
  · intro retirement hr
    rcases List.mem_append.1 hr with hr | hr
    · exact UInt64.le_trans (h.reached retirement hr) number
    · rw [Turn.retirements_watermark hr]
      exact UInt64.le_rfl
  · refine List.pairwise_append.2 ⟨h.rising, ?_, fun earlier he later hl => ?_⟩
    · refine List.pairwise_of_forall_mem_list fun earlier he later hl => ?_
      rw [Turn.retirements_watermark he, Turn.retirements_watermark hl]
      exact UInt64.le_rfl
    · exact UInt64.le_trans (h.reached earlier he) (known later hl).2

theorem turns_retired (grid : Grid) (settings : Settings) (calls : List (Link × Call)) :
    (play calls (new grid settings)).value.core.Tidy ∧
      Retired (turns calls (new grid settings)) (play calls (new grid settings)).value := by
  have start : Retired [] (new grid settings) := by
    refine ⟨⟨fun id entity used => ?_, nofun⟩, nofun, nofun, .nil⟩
    simp [core, new, Names.entityOf?] at used
  exact turns_keep (fun _ _ tidy h => h.step tidy) calls (new_tidy grid settings) start

/-- The ids in use are the ids of the objects, and each is the id of its object's entity both ways,
so no two objects share an id or an entity. This holds after every operation, whatever it is and
whether it fails. Ids are given back with watermarks that never fall. -/
theorem ids_match_objects (grid : Grid) (settings : Settings) (calls : List (Link × Call)) :
    let session := (play calls (new grid settings)).value
    let retired := (turns calls (new grid settings)).flatMap Turn.retirements
    (∀ id, (session.table.get? id).isSome ↔ (session.names.entityOf? id).isSome) ∧
    (∀ id replica, session.table.get? id = some replica → replica.netId = id ∧
      session.names.entityOf? id = some replica.entity ∧
      session.names.idOf? replica.entity = some id) ∧
    (∀ id other a b, session.table.get? id = some a → session.table.get? other = some b →
      a.netId = b.netId ∨ a.entity = b.entity → id = other) ∧
    (∀ turn ∈ turns calls (new grid settings), ∀ time, turn.call = .endFrame time →
      turn.after.names = turn.retirements.foldl Retirement.perform turn.before.namesAtSweep) ∧
    (retired.Pairwise fun earlier later => earlier.watermark ≤ later.watermark) ∧
    ∀ retirement ∈ retired, (retirement.names.entityOf? retirement.id).isSome ∧
      ∀ last ∈ retirement.names.quarantine.head?, last.1 ≤ retirement.watermark := by
  intro session retired
  obtain ⟨tidy, known⟩ := turns_retired grid settings calls
  have owned : ∀ id replica, session.table.get? id = some replica → replica.netId = id ∧
      session.names.entityOf? id = some replica.entity ∧
      session.names.idOf? replica.entity = some id := by
    intro id replica held
    have entity := tidy.tracked id replica held
    exact ⟨tidy.keyed id replica held, entity, (tidy.names.inverse id _).1 entity⟩
  refine ⟨fun id => ⟨fun held => ?_, fun used => ?_⟩, owned, ?_,
    fun _ _ _ ended => Turn.retirements_names ended, known.rising, known.inOrder⟩
  · obtain ⟨replica, held⟩ := Option.isSome_iff_exists.1 held
    rw [(owned id replica held).2.1]
    rfl
  · obtain ⟨entity, used⟩ := Option.isSome_iff_exists.1 used
    exact known.matched.held id entity used
  · intro id other a b ha hb shared
    obtain ⟨idA, -, nameA⟩ := owned id a ha
    obtain ⟨idB, -, nameB⟩ := owned other b hb
    rcases shared with same | same
    · rw [← idA, ← idB, same]
    · rw [same, nameB] at nameA
      exact (Option.some.inj nameA).symm

end Session

end AreaReplication
