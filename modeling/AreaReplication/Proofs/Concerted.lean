import AreaReplication.Proofs.ReplicaInvariant
import AreaReplication.Proofs.Timely

/-!
# The blocks of one tick and one object

The zones of a tick report independently of each other. An object that crosses a border is updated
by one zone and removed by another: a removal that comes before the update leaves no trace, and one
that comes after it is not taken over. So the block that updates the object decides what becomes of
it, and the order of the blocks does not matter.
-/
namespace AreaReplication

namespace Replica

variable {replica : Replica} {time : Time} {zone other : Zone}

def unnamed (replica : Replica) : Replica := { replica with netId := 0 }

theorem revive_unnamed (replica : Replica) : replica.unnamed.revive = replica.revive.unnamed := by
  have stage : replica.unnamed.removal = replica.removal := rfl
  have sent : replica.unnamed.removalSentAt = replica.removalSentAt := rfl
  unfold revive
  rw [stage, sent]
  split_ifs <;> rfl

theorem perform_unnamed (replica : Replica) (call : Call) (ingests : call.Ingests) :
    (replica.perform call).unnamed = replica.unnamed.perform call := by
  cases call with
  | update time zone zoneId position rotation =>
    by_cases stale : time < replica.version
    · have stale' : time < replica.unnamed.version := stale
      simp only [perform, update, if_pos stale, if_pos stale']
      rfl
    · have fresh : replica.version ≤ time := UInt64.not_lt.1 stale
      have fresh' : replica.unnamed.version ≤ time := fresh
      rw [perform, perform, update_eq fresh, update_eq fresh', revive_unnamed]
      rfl
  | removeFrom time zone =>
    have same : replica.unnamed.Withstands time zone ↔ replica.Withstands time zone := Iff.rfl
    by_cases still : replica.Withstands time zone
    · rw [perform, perform, still.removeFrom, (same.2 still).removeFrom]
    · rw [perform, perform, removeFrom_of_not still, removeFrom_of_not (mt same.1 still)]
      rfl
  | _ => cases ingests

theorem play_unnamed (replica : Replica) {calls : List Call}
    (ingests : ∀ call ∈ calls, call.Ingests) :
    (replica.play calls).unnamed = replica.unnamed.play calls := by
  induction calls generalizing replica with
  | nil => rfl
  | cons call rest ih =>
    obtain ⟨first, others⟩ := List.forall_mem_cons.1 ingests
    rw [play, List.foldl_cons, ← play, ih _ others, replica.perform_unnamed call first]
    rfl

/-- A removal leaves no trace on an object that is updated afterwards at the same time. -/
theorem Staged.update_removed (h : replica.Staged) (time : Time) (zone other : Zone)
    (zoneId : UInt32) (position : Vec3) (rotation : Quat) :
    ((replica.removeFrom time other).2.update time zone zoneId position rotation).value.2 =
      (replica.update time zone zoneId position rotation).value.2 := by
  by_cases still : replica.Withstands time other
  · rw [still.removeFrom]
  · obtain ⟨-, active, fresh⟩ := not_withstands.1 still
    have unsent := h.unsent active
    have reached : (replica.removeFrom time other).2.version ≤ time := by
      rw [removeFrom_of_not still]
      exact UInt64.le_rfl
    rw [update_eq reached, update_eq fresh, removeFrom_of_not still]
    simp [Replica.revive, active, unsent]

theorem Staged.update_removals (h : replica.Staged) (time : Time) (zone other : Zone)
    (zoneId : UInt32) (position : Vec3) (rotation : Quat) (entities : List EntityId) :
    ((replica.play (entities.map fun _ => .removeFrom time other)).update time zone zoneId position
      rotation).value.2 = (replica.update time zone zoneId position rotation).value.2 := by
  induction entities generalizing replica with
  | nil => rfl
  | cons first rest ih => exact (ih (removeFrom_staged _ _ h)).trans (h.update_removed _ _ _ _ _ _)

/-- No zone but `zone` can remove the object at `time`. -/
def ClaimedBy (time : Time) (zone : Zone) (replica : Replica) : Prop :=
  ∀ other, other ≠ zone → replica.Withstands time other

theorem claimedBy_of_update (replica : Replica) (time : Time) (zone : Zone) (zoneId : UInt32)
    (position : Vec3) (rotation : Quat) :
    ClaimedBy time zone (replica.update time zone zoneId position rotation).value.2 := by
  intro other apart
  by_cases stale : time < replica.version
  · rw [update, if_pos stale]
    exact .inr (.inr stale)
  · rw [update_eq (UInt64.not_lt.1 stale)]
    refine .inl ?_
    simp [crossedFrom, version, Ne.symm apart]

theorem ClaimedBy.removeFrom (h : ClaimedBy time zone replica) :
    ClaimedBy time zone (replica.removeFrom time zone).2 := by
  by_cases still : replica.Withstands time zone
  · rw [still.removeFrom]
    exact h
  · rw [removeFrom_of_not still]
    exact fun _ _ => .inr (.inl nofun)

/-- The operation is one that `zone` reports at `time`. -/
inductive Call.ReportedBy (time : Time) (zone : Zone) : Call → Prop where
  | update (zoneId : UInt32) (position : Vec3) (rotation : Quat) :
      ReportedBy time zone (.update time zone zoneId position rotation)
  | removal : ReportedBy time zone (.removeFrom time zone)

theorem ClaimedBy.play (h : ClaimedBy time zone replica) {calls : List Call}
    (reported : ∀ call ∈ calls, call.ReportedBy time zone) :
    ClaimedBy time zone (replica.play calls) := by
  induction calls generalizing replica with
  | nil => exact h
  | cons call rest ih =>
    obtain ⟨first, others⟩ := List.forall_mem_cons.1 reported
    refine ih ?_ others
    cases first with
    | update => exact claimedBy_of_update _ _ _ _ _ _
    | removal => exact h.removeFrom

/-- Whether updates at `time` are taken over does not change with what is reported at that time. -/
theorem version_le_play (replica : Replica) {calls : List Call}
    (reported : ∀ call ∈ calls, call.ReportedBy time zone) :
    (replica.play calls).version ≤ time ↔ replica.version ≤ time := by
  induction calls generalizing replica with
  | nil => rfl
  | cons call rest ih =>
    obtain ⟨first, others⟩ := List.forall_mem_cons.1 reported
    refine (ih _ others).trans ?_
    cases first with
    | update zoneId position rotation =>
      by_cases stale : time < replica.version
      · rw [perform, update, if_pos stale]
        rfl
      · have fresh := UInt64.not_lt.1 stale
        rw [perform, update_eq fresh]
        exact iff_of_true UInt64.le_rfl fresh
    | removal =>
      by_cases still : replica.Withstands time zone
      · rw [perform, still.removeFrom]
      · obtain ⟨-, -, fresh⟩ := not_withstands.1 still
        rw [perform, removeFrom_of_not still]
        exact iff_of_true UInt64.le_rfl fresh

end Replica

namespace StateBlock

variable {block other : StateBlock} {zoneId number : UInt32} {entity : EntityId} {capacity : Nat}

theorem reportedBy_of_callsFor :
    ∀ call ∈ block.callsFor zoneId entity, call.ReportedBy block.time block.zone := by
  intro call hc
  simp only [callsFor, List.mem_append, List.mem_map] at hc
  rcases hc with ⟨state, -, rfl⟩ | ⟨_, -, rfl⟩
  · exact .update _ _ _
  · exact .removal

/-- What a block leaves of the object of an entity, which it makes if there is none to update. -/
def leaves (block : StateBlock) (zoneId : UInt32) (capacity : Nat) (entity : EntityId)
    (object : Option Replica) : Option Replica :=
  (object.or (if block.refreshes entity then some (.new 0 entity capacity) else none)).map
    (Replica.play (block.callsFor zoneId entity))

theorem callsFor_of_unrefreshed (absent : block.refreshes entity = false) :
    block.callsFor zoneId entity = (block.removals.filter fun other => other = entity).map fun _ =>
      .removeFrom block.time block.zone := by
  have none : (block.updates.filter fun state => state.entity = entity) = [] := by
    simpa [refreshes] using absent
  rw [callsFor, none, List.map_nil, List.nil_append]

theorem callsFor_of_refreshed (zoneId : UInt32) (refreshed : block.refreshes entity) :
    ∃ position rotation rest, block.callsFor zoneId entity =
      .update block.time block.zone zoneId position rotation :: rest := by
  cases updates : block.updates.filter fun state => state.entity = entity with
  | nil =>
    have absent : block.refreshes entity = false := by simpa [refreshes] using updates
    rw [absent] at refreshed
    cases refreshed
  | cons first rest =>
    rw [callsFor, updates]
    exact ⟨_, _, _, rfl⟩

theorem leaves_of_unrefreshed (absent : block.refreshes entity = false) (object : Option Replica) :
    block.leaves zoneId capacity entity object =
      object.map (Replica.play (block.callsFor zoneId entity)) := by
  rw [leaves, absent]
  simp

/-- A block that does not mention an entity. -/
theorem leaves_of_absent (absent : block.refreshes entity = false)
    (unmentioned : entity ∉ block.removals) (object : Option Replica) :
    block.leaves zoneId capacity entity object = object := by
  have none : (block.removals.filter fun other => other = entity) = [] := by
    rw [List.filter_eq_nil_iff]
    intro other ho same
    exact unmentioned (of_decide_eq_true same ▸ ho)
  rw [leaves_of_unrefreshed absent, callsFor_of_unrefreshed absent, none]
  exact Option.map_id'

theorem leaves_staged {object : Option Replica} (staged : ∀ replica ∈ object, replica.Staged) :
    ∀ replica ∈ block.leaves zoneId capacity entity object, replica.Staged := by
  intro replica left
  obtain ⟨before, found, rfl⟩ := Option.map_eq_some_iff.1 left
  refine Replica.play_staged _ ?_
  rcases Option.or_eq_some_iff.1 found with held | ⟨-, made⟩
  · exact staged before held
  · split_ifs at made
    obtain rfl := Option.some.inj made
    exact Replica.new_staged _ _ _

/-- A block that updates the entity makes up for the removals of another one before it. -/
theorem leaves_leaves (same : other.time = block.time) (refreshed : block.refreshes entity)
    (absent : other.refreshes entity = false) {object : Option Replica}
    (staged : ∀ replica ∈ object, replica.Staged) :
    block.leaves zoneId capacity entity (other.leaves number capacity entity object) =
      block.leaves zoneId capacity entity object := by
  rw [leaves_of_unrefreshed absent, callsFor_of_unrefreshed absent]
  cases object with
  | none => rfl
  | some replica =>
    obtain ⟨position, rotation, rest, calls⟩ := callsFor_of_refreshed zoneId refreshed
    have first := (staged replica rfl).update_removals other.time block.zone other.zone zoneId
      position rotation (other.removals.filter fun removed => removed = entity)
    simp only [leaves, calls, Option.map_some, Option.some_or]
    rw [Replica.play, List.foldl_cons, Replica.perform, ← same, first]
    rfl

theorem claimedBy_of_leaves (refreshed : block.refreshes entity) {object : Option Replica}
    {replica : Replica} (left : block.leaves zoneId capacity entity object = some replica) :
    replica.ClaimedBy block.time block.zone := by
  obtain ⟨before, -, rfl⟩ := Option.map_eq_some_iff.1 left
  obtain ⟨position, rotation, rest, calls⟩ := callsFor_of_refreshed zoneId refreshed
  have reported := @reportedBy_of_callsFor block zoneId entity
  rw [calls] at reported ⊢
  exact (before.claimedBy_of_update _ _ _ _ _).play (List.forall_mem_cons.1 reported).2

/-- A removal that another zone reports after the update comes to nothing. -/
theorem leaves_of_claimedBy (absent : other.refreshes entity = false) {zone : Zone}
    (apart : other.zone ≠ zone) {replica : Replica} (claimed : replica.ClaimedBy other.time zone) :
    other.leaves number capacity entity (some replica) = some replica := by
  rw [leaves_of_unrefreshed absent, callsFor_of_unrefreshed absent, Option.map_some]
  refine congrArg some ?_
  induction other.removals.filter fun removed => removed = entity with
  | nil => rfl
  | cons first rest ih =>
    rw [List.map_cons, Replica.play, List.foldl_cons, Replica.perform, (claimed _ apart).removeFrom]
    exact ih

end StateBlock

/-- Blocks as the zone managers report them in one tick: each is of another zone, and what concerns
an entity is in one block, unless an entity that one of them updates is removed by others. -/
structure Concerted (time : Time) (blocks : List StateBlock) : Prop where
  stamped : ∀ block ∈ blocks, block.time = time
  zones : (blocks.map StateBlock.zone).Nodup
  updated : ∀ entity, blocks.countP (fun block => block.refreshes entity) ≤ 1
  removed : ∀ entity, (∀ block ∈ blocks, block.refreshes entity = false) →
    blocks.countP (fun block => entity ∈ block.removals) ≤ 1

section Order

variable {time : Time} {blocks others earlier later : List StateBlock} {block : StateBlock}
  {number : StateBlock → UInt32} {capacity : Nat} {entity : EntityId}

def leavesAll (number : StateBlock → UInt32) (capacity : Nat) (entity : EntityId)
    (blocks : List StateBlock) (object : Option Replica) : Option Replica :=
  blocks.foldl (fun object block => block.leaves (number block) capacity entity object) object

namespace Concerted

theorem perm (h : Concerted time blocks) (perm : blocks.Perm others) : Concerted time others where
  stamped block hb := h.stamped block (perm.mem_iff.2 hb)
  zones := (perm.map _).nodup_iff.1 h.zones
  updated entity := (perm.countP_eq _).symm.trans_le (h.updated entity)
  removed entity absent := (perm.countP_eq _).symm.trans_le
    (h.removed entity fun block hb => absent block (perm.mem_iff.1 hb))

/-- A predicate that one of the blocks satisfies, and at most one. -/
theorem only {p : StateBlock → Bool} (once : (earlier ++ block :: later).countP p ≤ 1)
    (here : p block) : ∀ other ∈ earlier ++ later, p other = false := by
  have none : (earlier ++ later).countP p = 0 := by
    simp only [List.countP_append, List.countP_cons_of_pos here] at once ⊢
    omega
  simpa using List.countP_eq_zero.1 none

/-- One block decides what is left of an object if all before it make no difference to what it
leaves and all after it change nothing of that. -/
theorem leavesAll_of_decisive {object : Option Replica}
    (staged : ∀ replica ∈ object, replica.Staged)
    (before : ∀ other ∈ earlier, ∀ object : Option Replica, (∀ replica ∈ object, replica.Staged) →
      block.leaves (number block) capacity entity
          (other.leaves (number other) capacity entity object) =
        block.leaves (number block) capacity entity object)
    (after : ∀ other ∈ later, other.leaves (number other) capacity entity
        (block.leaves (number block) capacity entity object) =
      block.leaves (number block) capacity entity object) :
    leavesAll number capacity entity (earlier ++ block :: later) object =
      block.leaves (number block) capacity entity object := by
  -- What reaches the block differs with what comes before, so `object` is any staged one.
  induction earlier generalizing object with
  | nil =>
    rw [List.nil_append, leavesAll, List.foldl_cons]
    generalize block.leaves (number block) capacity entity object = left at after ⊢
    induction later with
    | nil => rfl
    | cons other rest ih =>
      obtain ⟨first, others⟩ := List.forall_mem_cons.1 after
      rw [List.foldl_cons, first]
      exact ih others
  | cons other rest ih =>
    obtain ⟨first, others⟩ := List.forall_mem_cons.1 before
    have same := first object staged
    rw [← same] at after ⊢
    exact ih (StateBlock.leaves_staged staged) others after

/-- A block that updates an entity decides what is left of its object. -/
theorem leavesAll_of_refreshed (h : Concerted time blocks) (mem : block ∈ blocks)
    (refreshed : block.refreshes entity) {object : Option Replica}
    (staged : ∀ replica ∈ object, replica.Staged) :
    leavesAll number capacity entity blocks object =
      block.leaves (number block) capacity entity object := by
  obtain ⟨earlier, later, rfl⟩ := List.append_of_mem mem
  have absent := only (h.updated entity) refreshed
  -- Removals before the update are made up for by it; those after it find the object claimed.
  refine leavesAll_of_decisive staged (fun other ho object staged => ?_) fun other ho => ?_
  · have same := (h.stamped other (by simp [ho])).trans (h.stamped block mem).symm
    exact StateBlock.leaves_leaves same refreshed (absent other (by simp [ho])) staged
  · have same := (h.stamped other (by simp [ho])).trans (h.stamped block mem).symm
    have apart : other.zone ≠ block.zone := by
      have zones := h.zones
      rw [List.map_append, List.map_cons, List.nodup_append, List.nodup_cons] at zones
      intro shared
      exact zones.2.1.1 (shared ▸ List.mem_map_of_mem ho)
    cases left : block.leaves (number block) capacity entity object with
    | none =>
      rw [StateBlock.leaves_of_unrefreshed (absent other (by simp [ho]))]
      rfl
    | some replica =>
      have claimed := StateBlock.claimedBy_of_leaves refreshed left
      rw [← same] at claimed
      exact StateBlock.leaves_of_claimedBy (absent other (by simp [ho])) apart claimed

/-- If no block updates an entity, one that removes it decides. -/
theorem leavesAll_of_removed (h : Concerted time blocks)
    (absent : ∀ block ∈ blocks, block.refreshes entity = false) (mem : block ∈ blocks)
    (removed : entity ∈ block.removals) {object : Option Replica}
    (staged : ∀ replica ∈ object, replica.Staged) :
    leavesAll number capacity entity blocks object =
      block.leaves (number block) capacity entity object := by
  obtain ⟨earlier, later, rfl⟩ := List.append_of_mem mem
  have unmentioned := only (h.removed entity absent) (decide_eq_true removed)
  have still : ∀ other ∈ earlier ++ later, ∀ object,
      other.leaves (number other) capacity entity object = object := by
    intro other ho
    have listed : other ∈ earlier ++ block :: later := by
      rcases List.mem_append.1 ho with ho | ho <;> simp [ho]
    exact StateBlock.leaves_of_absent (absent other listed)
      (of_decide_eq_false (unmentioned other ho))
  refine leavesAll_of_decisive staged (fun other ho object _ => ?_) fun other ho => ?_
  · rw [still other (List.mem_append_left _ ho)]
  · rw [still other (List.mem_append_right _ ho)]

theorem leavesAll_of_unmentioned (absent : ∀ block ∈ blocks, block.refreshes entity = false)
    (unremoved : ∀ block ∈ blocks, entity ∉ block.removals) (object : Option Replica) :
    leavesAll number capacity entity blocks object = object := by
  induction blocks with
  | nil => rfl
  | cons block rest ih =>
    obtain ⟨fresh, others⟩ := List.forall_mem_cons.1 absent
    obtain ⟨here, elsewhere⟩ := List.forall_mem_cons.1 unremoved
    rw [leavesAll, List.foldl_cons, StateBlock.leaves_of_absent fresh here]
    exact ih others elsewhere

/-- The order of the blocks makes no difference to an object. -/
theorem leavesAll_perm (h : Concerted time blocks) (perm : blocks.Perm others)
    {object : Option Replica} (staged : ∀ replica ∈ object, replica.Staged) :
    leavesAll number capacity entity blocks object =
      leavesAll number capacity entity others object := by
  have again := h.perm perm
  by_cases updated : ∃ block ∈ blocks, block.refreshes entity
  · obtain ⟨block, mem, refreshed⟩ := updated
    rw [h.leavesAll_of_refreshed mem refreshed staged,
      again.leavesAll_of_refreshed (perm.mem_iff.1 mem) refreshed staged]
  · have absent : ∀ block ∈ blocks, block.refreshes entity = false := by
      intro block hb
      exact Bool.eq_false_iff.2 fun refreshed => updated ⟨block, hb, refreshed⟩
    have absent' : ∀ block ∈ others, block.refreshes entity = false :=
      fun block hb => absent block (perm.mem_iff.2 hb)
    by_cases mentioned : ∃ block ∈ blocks, entity ∈ block.removals
    · obtain ⟨block, mem, removed⟩ := mentioned
      rw [h.leavesAll_of_removed absent mem removed staged,
        again.leavesAll_of_removed absent' (perm.mem_iff.1 mem) removed staged]
    · have unremoved : ∀ block ∈ blocks, entity ∉ block.removals :=
        fun block hb removed => mentioned ⟨block, hb, removed⟩
      rw [leavesAll_of_unmentioned absent unremoved, leavesAll_of_unmentioned absent'
        fun block hb => unremoved block (perm.mem_iff.2 hb)]

/-- The updates of an entity stand in one block, so their order is the same. -/
theorem updates_perm (h : Concerted time blocks) (perm : blocks.Perm others) (entity : EntityId) :
    (blocks.flatMap StateBlock.updates).filter (fun state => state.entity = entity) =
      (others.flatMap StateBlock.updates).filter fun state => state.entity = entity := by
  have silent : ∀ block : StateBlock, block.refreshes entity = false →
      (block.updates.filter fun state => state.entity = entity) = [] := by
    intro block absent
    simpa [StateBlock.refreshes] using absent
  have alone : ∀ {blocks : List StateBlock}, Concerted time blocks → ∀ block ∈ blocks,
      block.refreshes entity → (blocks.flatMap StateBlock.updates).filter
        (fun state => state.entity = entity) =
          block.updates.filter fun state => state.entity = entity := by
    intro blocks h block mem refreshed
    obtain ⟨earlier, later, rfl⟩ := List.append_of_mem mem
    have absent := only (h.updated entity) refreshed
    have none : ∀ part : List StateBlock, (∀ other ∈ part, other ∈ earlier ++ later) →
        (part.flatMap StateBlock.updates).filter (fun state => state.entity = entity) = [] := by
      intro part within
      rw [List.filter_flatMap, List.flatMap_eq_nil_iff]
      exact fun other ho => silent other (absent other (within other ho))
    rw [List.flatMap_append, List.flatMap_cons, List.filter_append, List.filter_append,
      none earlier fun _ ho => List.mem_append_left _ ho,
      none later fun _ ho => List.mem_append_right _ ho, List.nil_append, List.append_nil]
  by_cases updated : ∃ block ∈ blocks, block.refreshes entity
  · obtain ⟨block, mem, refreshed⟩ := updated
    rw [alone h block mem refreshed, alone (h.perm perm) block (perm.mem_iff.1 mem) refreshed]
  · have absent : ∀ block ∈ blocks, block.refreshes entity = false := by
      intro block hb
      exact Bool.eq_false_iff.2 fun refreshed => updated ⟨block, hb, refreshed⟩
    rw [List.filter_flatMap, List.filter_flatMap, List.flatMap_eq_nil_iff.2
      fun block hb => silent block (absent block hb), List.flatMap_eq_nil_iff.2
      fun block hb => silent block (absent block (perm.mem_iff.2 hb))]

end Concerted

end Order

end AreaReplication
