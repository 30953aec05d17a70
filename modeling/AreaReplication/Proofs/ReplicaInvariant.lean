import AreaReplication.Proofs.History
import AreaReplication.Proofs.Removal
import AreaReplication.Proofs.ReplicaRun

/-!
# What always holds of an object

Operations come in any order and at any times, stale ones among them. Each of them changes an object
in one of a few ways, and all of these keep its versions in order, its history within its capacity,
and the stages of its removal in step with what it shows.
-/
namespace AreaReplication

/-- The state either tells everything of an object, or builds on a version that is not newer and
leaves out whose it is. -/
def Delta.WellFormed (delta : Delta) : Prop :=
  match delta.baseline with
  | none => delta.entity.isSome ∧ delta.zoneId.isSome ∧ delta.position.isSome ∧
      delta.rotation.isSome
  | some base => base ≤ delta.version ∧ delta.entity = none

namespace Replica

variable {replica after : Replica} {call : Call}

/-- The operation takes the object back after its removal was sent, so that nothing that was sent or
confirmed counts any longer. -/
def Restarts (replica : Replica) : Call → Prop
  | .update time _ _ _ _ =>
    replica.version ≤ time ∧ replica.removal ≠ .active ∧ replica.removalSentAt.isSome
  | _ => False

instance (replica : Replica) : (call : Call) → Decidable (replica.Restarts call)
  | .update _ _ _ _ _ => inferInstanceAs (Decidable (_ ∧ _ ∧ _))
  | .removeFrom _ _ | .remove _ | .expire _ | .advanceRemoval _ | .emit _ | .commit _ =>
    isFalse not_false

inductive Change (replica : Replica) : Call → Replica → Prop where
  | idle {call : Call} (quiet : ∀ time, call ≠ .emit time) : Change replica call replica
  | refresh {call : Call} {current : Snapshot} {zone : Zone} (quiet : ∀ time, call ≠ .emit time)
      (later : replica.version ≤ current.version) (shown : current.removed = false)
      (unsent : replica.removal ≠ .active → replica.removalSentAt = none) :
      Change replica call { replica with current, lastZone := some zone, removal := .active }
  | restart {call : Call} {current : Snapshot} {zone : Zone} (restarts : replica.Restarts call)
      (later : replica.version ≤ current.version) (shown : current.removed = false) :
      Change replica call { replica with
        current
        lastZone := some zone
        baseline := none
        history := replica.history.clear
        removal := .active
        removalSentAt := none }
  | mark {call : Call} {time : Time} {lastZone : Option Zone} (quiet : ∀ time, call ≠ .emit time)
      (later : replica.version ≤ time) (active : replica.removal = .active) :
      Change replica call { replica with
        current := { replica.current with version := time, removed := true }
        lastZone
        removal := .marked }
  | complete {time : Time} (marked : replica.removal = .marked)
      (sent : replica.removalSentAt.isSome) :
      Change replica (.advanceRemoval time) { replica with removal := .complete }
  | emit {time : Time} : Change replica (.emit time) { replica with
      history := if replica.isRecorded then replica.history
        else replica.history.push replica.version replica.current
      removalSentAt := if replica.current.removed && replica.removalSentAt.isNone then some time
        else replica.removalSentAt }
  | confirm {version : Version} {snapshot : Snapshot}
      (held : (version, snapshot) ∈ replica.history.entries)
      (above : ∀ base, replica.baseline = some base → base.version < version) :
      Change replica (.commit version) { replica with
        baseline := some snapshot
        history := replica.history.dropThrough version }

theorem update_change (replica : Replica) (time : Time) (zone : Zone) (zoneId : UInt32)
    (position : Vec3) (rotation : Quat) :
    Change replica (.update time zone zoneId position rotation)
      (replica.update time zone zoneId position rotation).value.2 := by
  by_cases stale : time < replica.version
  · rw [update, if_pos stale]
    exact .idle (by simp)
  · have fresh := UInt64.not_lt.1 stale
    rw [update_eq fresh]
    by_cases active : replica.removal = .active
    · have same : replica.revive = { replica with removal := .active } := by
        rw [revive, if_pos active, ← active]
      rw [same]
      exact .refresh (by simp) fresh rfl (absurd active)
    · by_cases sent : replica.removalSentAt.isSome
      · rw [revive, if_neg active, if_pos sent]
        exact .restart ⟨fresh, active, sent⟩ fresh rfl
      · rw [revive, if_neg active, if_neg sent]
        exact .refresh (by simp) fresh rfl fun _ => by simpa using sent

theorem remove_change (replica : Replica) (time : Time) (quiet : ∀ time, call ≠ .emit time) :
    Change replica call (replica.remove time).2 := by
  rcases replica.remove_cases time with same | ⟨active, later, marked⟩
  · rw [same]
    exact .idle quiet
  · rw [marked]
    exact .mark quiet later active

theorem removeFrom_change (replica : Replica) (time : Time) (zone : Zone) :
    Change replica (.removeFrom time zone) (replica.removeFrom time zone).2 := by
  by_cases still : replica.Withstands time zone
  · rw [still.removeFrom]
    exact .idle (by simp)
  · obtain ⟨-, active, later⟩ := not_withstands.1 still
    rw [removeFrom_of_not still]
    exact .mark (by simp) later active

theorem expire_change (replica : Replica) (time : Time) :
    Change replica (.expire time) (replica.expire time).2 := by
  unfold expire
  split_ifs
  · exact replica.remove_change time (by simp)
  · exact .idle (by simp)

/-- The history takes the current snapshot if it is not recorded yet. -/
theorem Sound.insert_current (h : Sound replica) (unrecorded : replica.isRecorded = false) :
    replica.history.insert replica.version replica.current =
      .ok (replica.history.push replica.version replica.current) := by
  obtain ⟨-, below⟩ := h.recordCurrent_eq unrecorded
  cases last : replica.history.lastVersion with
  | none => rw [History.insert, last]
  | some latest =>
    obtain ⟨entry, first, rfl⟩ := Option.map_eq_some_iff.1 last
    have less := below entry (List.mem_of_mem_head? first)
    rw [History.insert, last]
    exact if_neg (UInt64.not_le.2 less)

theorem emit_eq (h : Sound replica) (time : Time) : (replica.emit time).value.2 = { replica with
    history := if replica.isRecorded then replica.history
      else replica.history.push replica.version replica.current
    removalSentAt := if replica.current.removed && replica.removalSentAt.isNone then some time
      else replica.removalSentAt } := by
  rw [emit, Noted.value_bind, Noted.value_pure]
  cases recorded : replica.isRecorded with
  | true =>
    have same : replica.recordCurrent.value = replica := by
      rw [recordCurrent, if_pos recorded]
      rfl
    rw [same, if_pos rfl]
  | false =>
    rw [(h.recordCurrent_eq recorded).1, if_neg Bool.false_ne_true]

theorem commit_change (replica : Replica) (version : Version) :
    Change replica (.commit version) (replica.commit version).2 := by
  rcases replica.commit_cases version with ⟨_, _, _, same⟩ | ⟨_, held, above, moved⟩ | same
  · rw [same]
    exact .idle (by simp)
  · rw [moved]
    exact .confirm held above
  · rw [same]
    exact .idle (by simp)

theorem perform_change (h : Sound replica) (call : Call) :
    Change replica call (replica.perform call) := by
  cases call with
  | update time zone zoneId position rotation => exact update_change _ _ _ _ _ _
  | removeFrom time zone => exact removeFrom_change _ _ _
  | remove time => exact remove_change _ _ (by simp)
  | expire time => exact expire_change _ _
  | advanceRemoval time =>
    rcases replica.advanceRemoval_cases time with same | ⟨_, marked, sent, _, complete⟩
    · rw [perform, same]
      exact .idle (by simp)
    · rw [perform, complete]
      exact .complete marked (by rw [sent]; rfl)
  | emit time =>
    rw [perform, emit_eq h]
    exact .emit
  | commit version => exact commit_change _ _

/-- The versions are in order, the history stays within its capacity, and the stages of a removal
agree with the current snapshot. -/
structure Regular (capacity : Nat) (replica : Replica) : Prop
    extends Sound replica, Staged replica where
  gone : replica.removal ≠ .active → replica.current.removed
  room : replica.history.capacity = max capacity 1
  within : replica.history.size ≤ max capacity 1

theorem new_regular (netId : NetId) (entity : EntityId) (capacity : Nat) :
    Regular capacity (new netId entity capacity) :=
  { new_sound netId entity capacity, new_staged netId entity capacity with
    gone := fun removed => absurd rfl removed
    room := rfl
    within := Nat.zero_le _ }

theorem Change.version_le (change : Change replica call after) :
    replica.version ≤ after.version := by
  cases change with
  | refresh _ later => exact later
  | restart _ later => exact later
  | mark _ later => exact later
  | idle | complete | emit | confirm => exact UInt64.le_rfl

theorem perform_staged (call : Call) (h : Staged replica) : Staged (replica.perform call) := by
  -- Not by way of `Change`, since the stages need no order of versions.
  cases call with
  | update => exact update_staged _ _ h _ _ _
  | removeFrom => exact removeFrom_staged _ _ h
  | remove time =>
    rcases replica.remove_cases time with same | ⟨_, _, marked⟩
    · rw [perform, same]
      exact h
    · rw [perform, marked]
      exact staged_of_marked rfl _
  | expire => exact (Ending.start h).expire.toStaged
  | advanceRemoval => exact (Ending.start h).advanceRemoval.toStaged
  | emit => exact (Ending.start h).emit.toStaged
  | commit version =>
    rcases replica.commit_cases version with ⟨_, _, _, same⟩ | ⟨_, _, _, moved⟩ | same
    · rw [perform, same]
      exact h
    · rw [perform, moved]
      exact ⟨h.marked, h.shown, h.sent⟩
    · rw [perform, same]
      exact h

theorem play_staged (calls : List Call) (h : Staged replica) : Staged (replica.play calls) :=
  play_invariant perform_staged calls h

theorem Change.regular {capacity : Nat} (change : Change replica call after) (sound : Sound after)
    (staged : Staged after) (h : Regular capacity replica) : Regular capacity after := by
  cases change with
  | idle => exact h
  | refresh =>
    exact { sound, staged with gone := by simp, room := h.room, within := h.within }
  | restart =>
    exact { sound, staged with gone := by simp, room := h.room, within := Nat.zero_le _ }
  | mark =>
    exact { sound, staged with gone := fun _ => rfl, room := h.room, within := h.within }
  | complete marked =>
    have gone := h.gone (by rw [marked]; decide)
    exact { sound, staged with gone := fun _ => gone, room := h.room, within := h.within }
  | emit =>
    have room : 0 < replica.history.capacity := by
      rw [h.room]
      omega
    refine { sound, staged with gone := h.gone, room := ?_, within := ?_ }
    · dsimp only
      split_ifs <;> exact h.room
    · dsimp only
      split_ifs
      · exact h.within
      · rw [History.size, History.push_entries room, List.length_take, h.room]
        exact Nat.min_le_left _ _
  | confirm =>
    refine { sound, staged with gone := h.gone, room := h.room, within := ?_ }
    exact Nat.le_trans (List.takeWhile_sublist _).length_le h.within

theorem perform_regular {capacity : Nat} (call : Call) (h : Regular capacity replica) :
    Regular capacity (replica.perform call) :=
  (perform_change h.toSound call).regular (perform_sound call h.toSound)
    (perform_staged call h.toStaged) h

theorem play_regular {capacity : Nat} (calls : List Call) (h : Regular capacity replica) :
    Regular capacity (replica.play calls) :=
  play_invariant perform_regular calls h

theorem play_version_le (calls : List Call) (h : Sound replica) :
    replica.version ≤ (replica.play calls).version := by
  induction calls generalizing replica with
  | nil => exact UInt64.le_rfl
  | cons call rest ih =>
    have first := (perform_change h call).version_le
    exact UInt64.le_trans first (ih (perform_sound call h))

/-- Nothing is noted while a state is made: the history never refuses a snapshot. -/
theorem emit_events (h : Sound replica) (time : Time) : (replica.emit time).events = [] := by
  rw [emit, Noted.events_bind, Noted.events_pure, List.append_nil, recordCurrent]
  cases recorded : replica.isRecorded with
  | true => rfl
  | false =>
    rw [h.insert_current recorded]
    rfl

theorem delta_wellFormed (h : Sound replica) : replica.delta.WellFormed := by
  unfold Delta.WellFormed delta
  cases held : replica.baseline with
  | none => exact ⟨rfl, rfl, rfl, rfl⟩
  | some base => exact ⟨h.baseline_le base held, rfl⟩

/-- After any operations on a new object, at any times: its version has never gone down; its history
falls from the newest version on, stays within the capacity, and lies above the baseline and up to
the current version; it takes every snapshot that is sent; a removal is under way exactly if the
current snapshot is a removed one, has been sent only then, and is complete only once it has been
sent; and what is sent next is well-formed. -/
theorem object_stays_regular (netId : NetId) (entity : EntityId) (capacity : Nat)
    (earlier later : List Call) :
    let before := (new netId entity capacity).play earlier
    let replica := before.play later
    before.version ≤ replica.version ∧
    (replica.history.entries.Pairwise (fun newer older => older.1 < newer.1) ∧
      replica.history.entries.length ≤ max capacity 1 ∧
      (∀ entry ∈ replica.history.entries, entry.1 ≤ replica.version) ∧
      ∀ base, replica.baselineVersion = some base → base ≤ replica.version ∧
        ∀ entry ∈ replica.history.entries, base < entry.1) ∧
    ((replica.isRecorded ∨ ∃ history,
        replica.history.insert replica.version replica.current = .ok history) ∧
      ∀ time, (replica.emit time).events = []) ∧
    ((replica.removal = .active ↔ replica.current.removed = false) ∧
      (replica.removalSentAt.isSome → replica.removal ≠ .active) ∧
      (replica.removal = .complete → replica.removalSentAt.isSome)) ∧
    ∀ time, (replica.emit time).value.1.WellFormed := by
  intro before replica
  have start := play_regular earlier (new_regular netId entity capacity)
  have h : Regular capacity replica := play_regular later start
  refine ⟨play_version_le later start.toSound, ⟨h.falling, h.within, h.entry_le, ?_⟩, ⟨?_, ?_⟩,
    ⟨⟨?_, ?_⟩, fun sent => h.marked (h.shown sent), h.sent⟩, fun _ => delta_wellFormed h.toSound⟩
  · intro version held
    obtain ⟨base, hb, rfl⟩ := Option.map_eq_some_iff.1 held
    exact ⟨h.baseline_le base hb, h.above base hb⟩
  · cases recorded : replica.isRecorded with
    | true => exact .inl rfl
    | false => exact .inr ⟨_, h.insert_current recorded⟩
  · exact emit_events h.toSound
  · intro active
    by_contra removed
    exact h.marked (by simpa using removed) active
  · intro shown
    by_contra removed
    rw [h.gone removed] at shown
    cases shown

end Replica

end AreaReplication
