import AreaReplication.Proofs.Ingestion
import AreaReplication.Proofs.TickEnd

/-!
# Objects in a run at a pace

Where blocks are stamped with the time of their tick and ticks come in order, a removal that has not
been sent is of the tick under way. So the end of a tick finds an object in one of four ways, and
what it sends and leaves of the object can be read off.
-/
namespace AreaReplication

def StateBlock.refreshes (block : StateBlock) (entity : EntityId) : Bool :=
  block.updates.any fun state => state.entity = entity

namespace Replica

variable {pace : Pace} {replica : Replica} {time : Time}

/-- An object between the operations of a run at `pace`. A removal that has not been sent is of the
tick under way, and one that has been sent is of the tick that sent it. -/
structure Timely (pace : Pace) (replica : Replica) : Prop where
  removed : replica.current.removed = true ↔ replica.removal ≠ .active
  ongoing : replica.removal ≠ .complete
  reached : replica.version.toNat < pace.ceiling
  unsent : replica.removal = .marked → replica.removalSentAt = none →
    pace.tick = some replica.version
  sent : ∀ time, replica.removalSentAt = some time →
    replica.removal = .marked ∧ replica.version = time ∧ time.toNat < pace.floor

namespace Timely

theorem staged (h : Timely pace replica) : Staged replica where
  marked := h.removed.1
  shown sent := by
    obtain ⟨time, hs⟩ := Option.isSome_iff_exists.1 sent
    rw [h.removed, (h.sent time hs).1]
    decide
  sent complete := absurd complete h.ongoing

theorem active_or_marked (h : Timely pace replica) :
    replica.removal = .active ∨ replica.removal = .marked := by
  cases stage : replica.removal with
  | active => exact .inl rfl
  | marked => exact .inr rfl
  | complete => exact absurd stage h.ongoing

theorem version_le (h : Timely pace replica) (ceiling : pace.ceiling ≤ time.toNat + 1) :
    replica.version ≤ time := by
  have reached := h.reached
  rw [UInt64.le_iff_toNat_le]
  omega

theorem confirm (h : Timely pace replica) (confirmed : Version → Bool) :
    Timely pace (replica.confirm confirmed) := by
  rw [replica.confirm_rest confirmed]
  exact ⟨h.removed, h.ongoing, h.reached, h.unsent, h.sent⟩

theorem begin (h : Timely pace replica) {block : StateBlock}
    (allowed : pace.Allows (.stateChanged block)) :
    Timely (pace.after (.stateChanged block)) replica where
  removed := h.removed
  ongoing := h.ongoing
  reached := Nat.lt_of_lt_of_le h.reached allowed.ceiling_le
  unsent marked unsent := by
    have version := allowed.2 _ (h.unsent marked unsent)
    exact congrArg some version
  sent := h.sent

end Timely

/-- A removal that a block reports leaves the object alone or marks it. -/
theorem removeFrom_marks (replica : Replica) (time : Time) (zone : Zone) :
    (replica.removeFrom time zone).2 = replica ∨
      (replica.removal = .active ∧ (replica.removeFrom time zone).2 = { replica with
        current := { replica.current with version := time, removed := true }
        lastZone := some zone
        removal := .marked }) := by
  by_cases still : replica.Withstands time zone
  · exact .inl still.removeFrom
  · obtain ⟨-, active, -⟩ := not_withstands.1 still
    exact .inr ⟨active, removeFrom_of_not still⟩

namespace Timely

theorem not_later (h : Timely pace replica) (begun : pace.tick = some time) :
    replica.version ≤ time :=
  h.version_le (Nat.le_of_eq (by rw [Pace.ceiling, begun, Option.elim_some]))

theorem update (h : Timely pace replica) (begun : pace.tick = some time) (zone : Zone)
    (zoneId : UInt32) (position : Vec3) (rotation : Quat) :
    Timely pace (replica.update time zone zoneId position rotation).value.2 := by
  obtain ⟨active, unsent⟩ := h.staged.revive
  rw [update_eq (h.not_later begun)]
  -- The object is active again and nothing of a removal is left, so only its time is to be shown.
  refine ⟨by simp [active], by simp [active], ?_, by simp [active], by simp [unsent]⟩
  simp [Pace.ceiling, begun, version]

theorem removeFrom (h : Timely pace replica) (begun : pace.tick = some time) (zone : Zone) :
    Timely pace (replica.removeFrom time zone).2 := by
  rcases replica.removeFrom_marks time zone with same | ⟨active, marked⟩
  · rw [same]
    exact h
  · have unsent := h.staged.unsent active
    rw [marked]
    refine ⟨by simp, by simp, ?_, fun _ _ => begun, fun time sent => ?_⟩
    · simp [Pace.ceiling, begun, version]
    · rw [unsent] at sent
      cases sent

end Timely

theorem new_timely (begun : pace.tick = some time) (netId : NetId) (entity : EntityId)
    (capacity : Nat) : Timely pace (new netId entity capacity) := by
  refine ⟨by simp [new], by simp [new], ?_, by simp [new], by simp [new]⟩
  simp [Pace.ceiling, begun, version, new]

/-- How the end of the tick at `time` finds an object, and how the object enters the frame. -/
inductive Showing (time : Time) (replica : Replica) : Prop where
  /-- It has been updated. -/
  | alive (active : replica.removal = .active) (version : replica.version = time)
      (shown : replica.shownAt time = replica)
  /-- It has been removed, but nothing sent yet tells of it. -/
  | fresh (marked : replica.removal = .marked) (unsent : replica.removalSentAt = none)
      (version : replica.version = time) (shown : replica.shownAt time = replica)
  /-- It has not been touched. -/
  | expired (active : replica.removal = .active) (unsent : replica.removalSentAt = none)
      (earlier : replica.version ≠ time) (shown : replica.shownAt time = { replica with
        current := { replica.current with version := time, removed := true }
        removal := .marked })
  /-- The tick before has sent its removal. -/
  | last (marked : replica.removal = .marked) (sent : replica.removalSentAt = some replica.version)
      (shown : replica.shownAt time = { replica with removal := .complete })

theorem shownAt_eq (replica : Replica) (time : Time) :
    replica.shownAt time = (replica.expire time).2.advanceRemoval time := rfl

theorem Timely.showing (h : Timely pace replica) (admits : pace.Admits time) :
    Showing time replica := by
  have reached := h.version_le admits.ceiling_le
  rcases h.active_or_marked with active | marked
  · have unsent := h.staged.unsent active
    by_cases version : replica.version = time
    · refine .alive active version ?_
      simp [shownAt_eq, expire, advanceRemoval, version, active]
    · have earlier := UInt64.lt_of_le_of_ne reached version
      refine .expired active unsent version ?_
      simp [shownAt_eq, expire, remove, advanceRemoval, active, unsent, earlier,
        UInt64.not_lt.2 reached]
  · cases sent : replica.removalSentAt with
    | none =>
      have version := admits.2 _ (h.unsent marked sent)
      refine .fresh marked sent version.symm ?_
      simp [shownAt_eq, expire, advanceRemoval, marked, sent]
    | some before =>
      obtain ⟨-, version, floor⟩ := h.sent before sent
      have earlier : before < time := by
        rw [UInt64.lt_iff_toNat_lt]
        exact Nat.lt_of_lt_of_le floor admits.1
      refine .last marked (by rw [sent, version]) ?_
      simp [shownAt_eq, expire, advanceRemoval, marked, sent, earlier]

namespace Timely

theorem shown_of_unsent (h : Timely pace replica) (admits : pace.Admits time)
    (unsent : replica.removalSentAt = none) :
    (replica.shownAt time).version = time ∧ (replica.shownAt time).removalSentAt = none ∧
      (replica.shownAt time).removal ≠ .complete ∧
      ((replica.shownAt time).current.removed = true ↔
        (replica.shownAt time).removal ≠ .active) := by
  cases h.showing admits with
  | alive active version shown =>
    rw [shown]
    exact ⟨version, unsent, h.ongoing, h.removed⟩
  | fresh marked unsent version shown =>
    rw [shown]
    exact ⟨version, unsent, h.ongoing, h.removed⟩
  | expired active unsent earlier shown =>
    rw [shown]
    exact ⟨rfl, unsent, by simp, by simp⟩
  | last marked sent shown =>
    rw [unsent] at sent
    cases sent

theorem emitted_of_unsent (h : Timely pace replica) (admits : pace.Admits time)
    (unsent : replica.removalSentAt = none) :
    Timely { floor := time.toNat + 1 } (replica.emittedAt time) := by
  obtain ⟨version, unsent, ongoing, removed⟩ := h.shown_of_unsent admits unsent
  have sentAt : (replica.emittedAt time).removalSentAt =
      if (replica.shownAt time).current.removed then some time else none := by
    rw [emittedAt, emit_removalSentAt, unsent]
    simp
  refine ⟨?_, ?_, ?_, ?_, ?_⟩
  · rw [emittedAt_current, emittedAt, emit_removal]
    exact removed
  · rw [emittedAt, emit_removal]
    exact ongoing
  · simp [Replica.version, Pace.ceiling] at version ⊢
    simp [version]
  · -- A removal that enters the frame is taken down, so none is left unsent.
    intro marked none
    rw [emittedAt, emit_removal] at marked
    rw [sentAt, if_pos (removed.2 (by simp [marked]))] at none
    cases none
  · intro sent taken
    rw [sentAt] at taken
    split_ifs at taken with gone
    obtain rfl := Option.some.inj taken
    rw [emittedAt, emit_removal]
    refine ⟨?_, ?_, Nat.lt_succ_self _⟩
    · cases stage : (replica.shownAt time).removal with
      | active => exact absurd stage (removed.1 gone)
      | marked => rfl
      | complete => exact absurd stage ongoing
    · rw [Replica.version, emit_current]
      exact version

/-- An object whose removal has been sent is shown once more and is done with. -/
theorem last_removal (h : Timely pace replica) (admits : pace.Admits time) {sent : Time}
    (taken : replica.removalSentAt = some sent) :
    (replica.shownAt time).delta.removed ∧ (replica.shownAt time).delta.version = sent ∧
      (replica.emittedAt time).removal = .complete := by
  obtain ⟨marked, version, -⟩ := h.sent sent taken
  cases h.showing admits with
  | last _ _ shown =>
    have removed : replica.current.removed := h.removed.2 (by simp [marked])
    rw [emittedAt, emit_removal, delta_removed, delta_version, shown]
    exact ⟨removed, version, rfl⟩
  | _ => simp_all

end Timely

/-- The object is there again, and nothing that the client may hold of it counts. -/
structure Anew (replica : Replica) : Prop where
  unsent : replica.removalSentAt = none
  baseline : replica.baseline = none
  history : replica.history.entries = []

theorem revive_of_unsent (unsent : replica.removalSentAt = none) :
    replica.revive = { replica with removal := .active } := by
  unfold revive
  split_ifs with active sent
  · rw [← active]
  · rw [unsent] at sent
    cases sent
  · rfl

theorem revive_of_sent (marked : replica.removal = .marked)
    (sent : replica.removalSentAt.isSome) : Anew replica.revive := by
  rw [revive, if_neg (by simp [marked]), if_pos sent]
  exact ⟨rfl, rfl, rfl⟩

/-- The operation is one of those that a block consists of. -/
def Call.Ingests : Call → Prop
  | .update .. | .removeFrom .. => True
  | _ => False

namespace Anew

theorem perform (h : Anew replica) {call : Call} (ingests : call.Ingests) :
    Anew (replica.perform call) := by
  cases call with
  | update time zone zoneId position rotation =>
    rw [Replica.perform]
    by_cases stale : time < replica.version
    · rw [Replica.update, if_pos stale]
      exact h
    · rw [update_eq (UInt64.not_lt.1 stale), revive_of_unsent h.unsent]
      exact ⟨h.unsent, h.baseline, h.history⟩
  | removeFrom time zone =>
    rcases replica.removeFrom_marks time zone with same | ⟨-, marked⟩
    · rw [Replica.perform, same]
      exact h
    · rw [Replica.perform, marked]
      exact ⟨h.unsent, h.baseline, h.history⟩
  | _ => cases ingests

theorem play (h : Anew replica) {calls : List Call} (ingests : ∀ call ∈ calls, call.Ingests) :
    Anew (replica.play calls) := by
  induction calls generalizing replica with
  | nil => exact h
  | cons call rest ih =>
    obtain ⟨first, others⟩ := List.forall_mem_cons.1 ingests
    exact ih (h.perform first) others

theorem confirm (h : Anew replica) (confirmed : Version → Bool) :
    replica.confirm confirmed = replica := by
  refine confirm_of_none fun entry he => ?_
  rw [h.history] at he
  cases he

end Anew

section Blocks

variable {block : StateBlock} {zoneId : UInt32} {entity : EntityId}

theorem ingests_of_callsFor : ∀ call ∈ block.callsFor zoneId entity, call.Ingests := by
  intro call hc
  simp only [StateBlock.callsFor, List.mem_append, List.mem_map] at hc
  rcases hc with ⟨state, -, rfl⟩ | ⟨other, -, rfl⟩ <;> trivial

/-- A block that does not update the entity has nothing to say of an object that is removed. -/
theorem play_unrefreshed (marked : replica.removal = .marked)
    (absent : block.refreshes entity = false) :
    replica.play (block.callsFor zoneId entity) = replica := by
  have none : (block.updates.filter fun state => state.entity = entity) = [] := by
    simpa [StateBlock.refreshes] using absent
  have idle : replica.perform (.removeFrom block.time block.zone) = replica := by
    rcases replica.removeFrom_marks block.time block.zone with same | ⟨active, -⟩
    · exact same
    · rw [active] at marked
      cases marked
  rw [StateBlock.callsFor, none, List.map_nil, List.nil_append]
  -- The removals that are left find the object as it is, one after the other.
  induction block.removals.filter fun other => other = entity with
  | nil => rfl
  | cons first rest ih =>
    rw [List.map_cons, play, List.foldl_cons, idle]
    exact ih

/-- A block that updates the entity brings an object whose removal was sent back anew. -/
theorem play_refreshed (h : Timely pace replica) (begun : pace.tick = some block.time)
    (sent : replica.removalSentAt.isSome) (refreshed : block.refreshes entity) :
    Anew (replica.play (block.callsFor zoneId entity)) := by
  obtain ⟨time, taken⟩ := Option.isSome_iff_exists.1 sent
  have marked := (h.sent time taken).1
  have ingests := @ingests_of_callsFor block zoneId entity
  cases updates : block.updates.filter fun state => state.entity = entity with
  | nil =>
    have absent : block.refreshes entity = false := by
      simpa [StateBlock.refreshes] using updates
    rw [absent] at refreshed
    cases refreshed
  | cons first rest =>
    rw [StateBlock.callsFor, updates, List.map_cons, List.cons_append] at ingests ⊢
    have back : Anew (replica.perform
        (.update block.time block.zone zoneId first.position first.rotation)) := by
      obtain ⟨unsent, baseline, history⟩ := revive_of_sent marked sent
      rw [perform, update_eq (h.not_later begun)]
      exact ⟨unsent, baseline, history⟩
    exact back.play fun call hc => ingests call (List.mem_cons_of_mem _ hc)

end Blocks

end Replica

end AreaReplication
