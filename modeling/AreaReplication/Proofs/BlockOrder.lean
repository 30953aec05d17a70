import AreaReplication.Proofs.Concerted
import AreaReplication.Proofs.Objects
import AreaReplication.Proofs.Visibility
import Mathlib.Data.Finset.Card

/-!
# Blocks of one tick may come in any order

A session takes the blocks of a tick in as they come. As long as there are ids enough for the
entities that are new, whatever the order, the objects differ at most in the ids that the new ones
get.
-/
namespace AreaReplication

namespace Names

variable {names : Names} {entity : EntityId} {entities : List EntityId}

/-- How many ids can be given out before one is freed. -/
def spare (names : Names) : Nat := names.free.size + (UInt32.size - 1 - names.next.toNat)

def newcomers (names : Names) (entities : List EntityId) : Finset EntityId :=
  entities.toFinset.filter fun entity => names.idOf? entity = none

def Room (names : Names) (entities : List EntityId) : Prop :=
  (names.newcomers entities).card ≤ names.spare

instance : Decidable (names.Room entities) :=
  inferInstanceAs (Decidable ((names.newcomers entities).card ≤ names.spare))

theorem mem_newcomers : entity ∈ names.newcomers entities ↔
    entity ∈ entities ∧ names.idOf? entity = none := by
  simp [newcomers]

theorem spare_of_take? {id : NetId} {rest : Names} (taken : names.take? = some (id, rest)) :
    names.spare = rest.spare + 1 := by
  rcases names.take?_cases with ⟨first, least, found⟩ | ⟨-, below, found⟩ | ⟨-, -, found⟩
  · obtain ⟨rfl, rfl⟩ : first = id ∧ _ = rest := by simpa using found.symm.trans taken
    have free : first ∈ names.free := (Std.ExtTreeSet.min?_eq_some_iff_mem_and_forall.1 least).1
    have filled : names.free.size ≠ 0 := fun empty => by
      have := Std.ExtTreeSet.eq_empty_iff_size_eq_zero.2 empty
      rw [this] at free
      simp at free
    simp only [spare]
    rw [Std.ExtTreeSet.size_erase, if_pos (Std.ExtTreeSet.contains_iff_mem.2 free)]
    omega
  · obtain ⟨rfl, rfl⟩ : names.next = id ∧ _ = rest := by simpa using found.symm.trans taken
    have next : (names.next + 1).toNat = names.next.toNat + 1 := by
      rw [UInt32.toNat_add]
      exact Nat.mod_eq_of_lt below
    simp only [spare, next]
    omega
  · cases found.symm.trans taken

theorem spare_of_none (none : names.take? = none) : names.spare = 0 := by
  rcases names.take?_cases with ⟨_, _, found⟩ | ⟨_, _, found⟩ | ⟨empty, full, _⟩
  · cases found.symm.trans none
  · cases found.symm.trans none
  · simp only [spare, empty, Std.ExtTreeSet.size_empty]
    omega

/-- An entity for which there is room gets an id, and there is room for the others. -/
theorem Room.assign (room : names.Room (entity :: entities)) (sound : names.Sound) :
    (names.assign entity).value.1.isSome ∧ (names.assign entity).value.2.Room entities := by
  have fewer : names.newcomers entities ⊆ names.newcomers (entity :: entities) := by
    intro other ho
    obtain ⟨listed, none⟩ := mem_newcomers.1 ho
    exact mem_newcomers.2 ⟨List.mem_cons_of_mem _ listed, none⟩
  cases named : names.idOf? entity with
  | some id =>
    have kept : names.assign entity = ⟨(some id, names), []⟩ := by
      rw [Names.assign, named]
      rfl
    rw [kept]
    exact ⟨rfl, (Finset.card_le_card fewer).trans room⟩
  | none =>
    have first : entity ∈ names.newcomers (entity :: entities) :=
      mem_newcomers.2 ⟨List.mem_cons_self, named⟩
    cases taken : names.take? with
    | none =>
      have full := spare_of_none taken
      rw [Room, full] at room
      rw [Finset.card_eq_zero.1 (Nat.le_zero.1 room)] at first
      simp at first
    | some found =>
      obtain ⟨id, rest⟩ := found
      have fresh := take?_fresh sound taken
      have given : names.assign entity =
          ⟨(some id, rest.bind id entity), [.idAssigned id entity]⟩ := by
        rw [Names.assign, named, taken]
        rfl
      rw [given]
      refine ⟨rfl, ?_⟩
      -- One newcomer less, and one spare id less.
      have left : (rest.bind id entity).newcomers entities ⊆
          (names.newcomers (entity :: entities)).erase entity := by
        intro other ho
        obtain ⟨listed, none⟩ := mem_newcomers.1 ho
        rw [fresh.idOf?_bind] at none
        split_ifs at none with same
        have waiting := mem_newcomers.2 ⟨List.mem_cons_of_mem entity listed, none⟩
        exact Finset.mem_erase.2 ⟨Ne.symm same, waiting⟩
      calc ((rest.bind id entity).newcomers entities).card
          ≤ (names.newcomers (entity :: entities)).card - 1 := by
            rw [← Finset.card_erase_of_mem first]
            exact Finset.card_le_card left
        _ ≤ names.spare - 1 := Nat.sub_le_sub_right room 1
        _ = (rest.bind id entity).spare := by
            rw [spare_of_take? taken]
            rfl

end Names

namespace Session

open AreaReplication.Core

def ingest (blocks : List StateBlock) (session : Session) : Noted Session :=
  blocks.foldlM stateChanged session

variable {session : Session} {block : StateBlock} {zoneId : UInt32} {id : NetId}
  {entity : EntityId} {entities : List EntityId}

/-- The object that an update finds. -/
theorem getOrNew_of_assign (tidy : session.core.Tidy)
    (given : (session.names.assign entity).value.1 = some id) :
    session.table.getOrNew id entity =
      (session.object? entity).getD (.new id entity session.table.historyCapacity) := by
  rcases session.names.assign_cases entity with ⟨known, named, ha⟩ | ⟨fresh, rest, new, ht, ha⟩ | ha
  · rw [ha] at given
    obtain rfl := Option.some.inj given
    rw [object?, named]
    rfl
  · rw [ha] at given
    obtain rfl := Option.some.inj given
    have unused := (Names.take?_fresh tidy.names ht).unused
    -- Objects are held under ids in use, so there is none under a fresh one.
    have free : session.table.get? fresh = none := by
      cases held : session.table.get? fresh with
      | none => rfl
      | some replica =>
        have owned := tidy.tracked fresh replica held
        rw [unused] at owned
        cases owned
    rw [ReplicaTable.getOrNew_of_none free, object?, new]
    rfl
  · rw [ha] at given
    cases given

theorem applyUpdate_capacity (state : EntityState) :
    (session.applyUpdate block zoneId state).value.table.historyCapacity =
      session.table.historyCapacity := by
  rw [applyUpdate_table]
  cases (session.names.assign state.entity).value.1 <;> rfl

/-- With ids enough, an update makes or changes the object of its entity. -/
theorem applyUpdate_unnamed (block : StateBlock) (zoneId : UInt32) (tidy : session.core.Tidy)
    {state : EntityState} (room : session.names.Room (state.entity :: entities))
    (entity : EntityId) :
    ((session.applyUpdate block zoneId state).value.object? entity).map Replica.unnamed =
      if state.entity = entity then
        some ((((session.object? entity).map Replica.unnamed).getD
          (.new 0 entity session.table.historyCapacity)).perform
            (.update block.time block.zone zoneId state.position state.rotation))
      else (session.object? entity).map Replica.unnamed := by
  rw [applyUpdate_object? block zoneId tidy]
  split_ifs with same
  · subst same
    obtain ⟨id, given⟩ := Option.isSome_iff_exists.1 (room.assign tidy.names).1
    rw [given, Option.map_some, Option.map_some, getOrNew_of_assign tidy given]
    refine congrArg some ((Replica.perform_unnamed _ (.update block.time block.zone zoneId
      state.position state.rotation) trivial).trans ?_)
    cases session.object? state.entity <;> rfl
  · rfl

theorem updates_unnamed (block : StateBlock) (zoneId : UInt32) (tidy : session.core.Tidy)
    (states : List EntityState)
    (room : session.names.Room (states.map EntityState.entity ++ entities)) (entity : EntityId) :
    let after := (states.foldlM (applyUpdate block zoneId) session).value
    after.names.Room entities ∧ (after.object? entity).map Replica.unnamed =
      (((session.object? entity).map Replica.unnamed).or
        (if states.any fun state => state.entity = entity then
          some (.new 0 entity session.table.historyCapacity) else none)).map
        (Replica.play ((states.filter fun state => state.entity = entity).map fun state =>
          .update block.time block.zone zoneId state.position state.rotation)) := by
  induction states generalizing session with
  | nil =>
    refine ⟨room, ?_⟩
    simp only [List.foldlM_nil, Noted.value_pure, List.any_nil, Bool.false_eq_true, if_false,
      Option.or_none]
    exact Option.map_id'.symm
  | cons state rest ih =>
    have first := applyUpdate_unnamed block zoneId tidy room entity
    have left := (room.assign tidy.names).2
    rw [← applyUpdate_names block zoneId] at left
    obtain ⟨room, after⟩ := ih (applyUpdate_tidy block zoneId tidy state) left
    refine ⟨room, after.trans ?_⟩
    rw [first, applyUpdate_capacity, List.any_cons, List.filter_cons]
    by_cases same : state.entity = entity
    · simp only [same, if_true, decide_true, Bool.true_or, Option.some_or, Option.map_some,
        List.map_cons]
      cases (session.object? entity).map Replica.unnamed <;> rfl
    · simp only [same, if_false, decide_false, Bool.false_or, Bool.false_eq_true]

/-- With ids enough, a block makes and changes objects as it says. -/
theorem stateChanged_unnamed (tidy : session.core.Tidy)
    (room : session.names.Room (block.updates.map EntityState.entity ++ entities))
    (entity : EntityId) :
    (session.stateChanged block).value.names.Room entities ∧
      ((session.stateChanged block).value.object? entity).map Replica.unnamed =
        block.leaves (session.blockZoneId block) session.table.historyCapacity entity
          ((session.object? entity).map Replica.unnamed) := by
  obtain ⟨left, updated⟩ := updates_unnamed block (session.blockZoneId block) tidy block.updates
    room entity
  have tidied := updates_tidy block (session.blockZoneId block) tidy block.updates
  have removed := removals_object? block tidied block.removals entity
  simp only [stateChanged, Noted.value_bind, Noted.value_pure]
  refine ⟨?_, ?_⟩
  · obtain ⟨_, frame⟩ := removals_frame (block.updates.foldlM
      (applyUpdate block (session.blockZoneId block)) session).value block block.removals
    rw [frame]
    exact left
  · rw [removed, Option.map_map]
    have natural : Replica.unnamed ∘ Replica.play
        ((block.removals.filter fun other => other = entity).map fun _ =>
          .removeFrom block.time block.zone) =
        Replica.play ((block.removals.filter fun other => other = entity).map fun _ =>
          .removeFrom block.time block.zone) ∘ Replica.unnamed := by
      funext replica
      refine replica.play_unnamed fun call hc => ?_
      obtain ⟨_, -, rfl⟩ := List.mem_map.1 hc
      trivial
    rw [natural, ← Option.map_map, updated, Option.map_map]
    refine congrArg (fun change => Option.map change _) ?_
    funext replica
    simp only [StateBlock.callsFor, Replica.play, List.foldl_append, Function.comp_apply]

theorem stateChanged_capacity : (session.stateChanged block).value.table.historyCapacity =
    session.table.historyCapacity :=
  (session.stateChanged_path block).keeps
    (P := fun _ core => core.table.historyCapacity = session.table.historyCapacity)
    (fun _ _ _ _ same step => by cases step <;> exact same) [] rfl

/-- Updates of the entity at `time` are taken over. -/
def takes (session : Session) (time : Time) (entity : EntityId) : Bool :=
  (session.object? entity).all fun replica => replica.version ≤ time

theorem takes_eq_unnamed (time : Time) : session.takes time entity =
    ((session.object? entity).map Replica.unnamed).all fun replica => replica.version ≤ time := by
  rw [takes, Option.all_map]
  rfl

/-- What is reported at a time does not change whether updates at that time are taken over. -/
theorem takes_of_reported {after : Session} {time : Time} {zone : Zone} {new : Option Replica}
    {calls : List Replica.Call} (reported : ∀ call ∈ calls, call.ReportedBy time zone)
    (made : ∀ replica ∈ new, replica.version ≤ time)
    (left : (after.object? entity).map Replica.unnamed =
      (((session.object? entity).map Replica.unnamed).or new).map (Replica.play calls)) :
    after.takes time entity = session.takes time entity := by
  rw [takes_eq_unnamed, takes_eq_unnamed, left, Option.all_map]
  cases (session.object? entity).map Replica.unnamed with
  | none =>
    rw [Option.none_or, Option.all_none]
    cases new with
    | none => rfl
    | some replica => simpa using (replica.version_le_play reported).2 (made replica rfl)
  | some replica => simpa using replica.version_le_play reported

theorem applyUpdate_takes (tidy : session.core.Tidy) {state : EntityState}
    (room : session.names.Room (state.entity :: entities)) (entity : EntityId) :
    (session.applyUpdate block zoneId state).value.takes block.time entity =
      session.takes block.time entity := by
  have after := applyUpdate_unnamed block zoneId tidy room entity
  by_cases same : state.entity = entity
  · rw [if_pos same] at after
    have reported : ∀ call ∈ [Replica.Call.update block.time block.zone zoneId state.position
        state.rotation], call.ReportedBy block.time block.zone := by
      intro call hc
      rw [List.mem_singleton.1 hc]
      exact .update _ _ _
    have made : ∀ replica ∈ some (Replica.new 0 entity session.table.historyCapacity),
        replica.version ≤ block.time := by
      intro replica made
      rw [← Option.some.inj made]
      exact UInt64.zero_le
    refine takes_of_reported reported made (after.trans ?_)
    cases (session.object? entity).map Replica.unnamed <;> rfl
  · rw [if_neg same] at after
    rw [takes_eq_unnamed, after, takes_eq_unnamed]

theorem stateChanged_takes (tidy : session.core.Tidy)
    (room : session.names.Room (block.updates.map EntityState.entity ++ entities))
    (entity : EntityId) :
    (session.stateChanged block).value.takes block.time entity =
      session.takes block.time entity := by
  refine takes_of_reported StateBlock.reportedBy_of_callsFor ?_
    (stateChanged_unnamed tidy room entity).2
  intro replica made
  split_ifs at made
  · rw [← Option.some.inj made]
    exact UInt64.zero_le
  · cases made

/-- The positions of the client's own entity that updates at `time` bring. -/
def brought (session : Session) (time : Time) (states : List EntityState) : List Vec3 :=
  match session.self with
  | some own =>
    if session.takes time own then
      (states.filter fun state => state.entity = own).map EntityState.position
    else []
  | none => []

theorem brought_append (time : Time) (states more : List EntityState) :
    session.brought time (states ++ more) =
      session.brought time states ++ session.brought time more := by
  unfold brought
  split
  · split_ifs
    · rw [List.filter_append, List.map_append]
    · rfl
  · rfl

theorem brought_eq {after : Session} {time : Time} (self : after.self = session.self)
    (takes : ∀ entity, after.takes time entity = session.takes time entity)
    (states : List EntityState) : after.brought time states = session.brought time states := by
  unfold brought
  rw [self]
  simp only [takes]

theorem accepts_eq_takes (tidy : session.core.Tidy) {state : EntityState}
    (room : session.names.Room (state.entity :: entities)) :
    session.accepts block state = session.takes block.time state.entity := by
  obtain ⟨id, given⟩ := Option.isSome_iff_exists.1 (room.assign tidy.names).1
  rw [accepts, given, Option.any_some, getOrNew_of_assign tidy given, takes]
  cases session.object? state.entity with
  | none =>
    have new : (Replica.new id state.entity session.table.historyCapacity).version ≤ block.time :=
      UInt64.zero_le
    simpa using new
  | some replica => rfl

/-- With ids enough, the updates of a block bring their positions in order. -/
theorem ownPositions_eq (tidy : session.core.Tidy) (states : List EntityState)
    (room : session.names.Room (states.map EntityState.entity ++ entities)) :
    ownPositions block zoneId states session = session.brought block.time states := by
  induction states generalizing session with
  | nil =>
    unfold brought
    split
    · split_ifs <;> rfl
    · rfl
  | cons state rest ih =>
    have left := (room.assign tidy.names).2
    rw [← applyUpdate_names block zoneId] at left
    have self : (session.applyUpdate block zoneId state).value.self = session.self := by
      obtain ⟨_, _, frame⟩ := session.applyUpdate_frame block zoneId state
      rw [frame]
    have parts := session.brought_append block.time [state] rest
    rw [List.singleton_append] at parts
    rw [ownPositions, ih (applyUpdate_tidy block zoneId tidy state) left,
      brought_eq self (applyUpdate_takes tidy room), accepts_eq_takes tidy room, parts]
    refine congrArg (· ++ _) ?_
    unfold brought
    cases own : session.self with
    | none => simp
    | some entity =>
      by_cases same : state.entity = entity
      · simp [same]
      · simp [same, Ne.symm same]

theorem stateChanged_idOf? (tidy : session.core.Tidy) (block : StateBlock)
    (named : session.names.idOf? entity = some id) :
    (session.stateChanged block).value.names.idOf? entity = some id := by
  refine ((session.stateChanged_path block).keeps (P := fun _ core =>
    core.Tidy ∧ core.names.idOf? entity = some id) ?_ [] ⟨tidy, named⟩).2
  rintro _ core es next ⟨tidy, named⟩ step
  refine ⟨step.tidy tidy, ?_⟩
  cases step with
  | remark | removal => exact named
  | @update owner _ _ _ assigned =>
    have kept := Names.assign_keeps tidy.names owner named
    rw [assigned] at kept
    exact kept

/-- What blocks of one tick leave of the objects and bring of the client's own entity. -/
theorem ingest_eq {time : Time} (blocks : List StateBlock)
    (stamped : ∀ block ∈ blocks, block.time = time) (tidy : session.core.Tidy)
    (room : session.names.Room ((blocks.flatMap StateBlock.updates).map EntityState.entity)) :
    let after := (session.ingest blocks).value
    (∀ entity, (after.object? entity).map Replica.unnamed =
      leavesAll session.blockZoneId session.table.historyCapacity entity blocks
        ((session.object? entity).map Replica.unnamed)) ∧
    after.selfPosition =
      (session.brought time (blocks.flatMap StateBlock.updates)).getLast?.getD
        session.selfPosition ∧
    ∀ entity id, session.names.idOf? entity = some id → after.names.idOf? entity = some id := by
  induction blocks generalizing session with
  | nil =>
    refine ⟨fun _ => rfl, ?_, fun _ _ named => named⟩
    unfold brought
    split
    · split_ifs <;> rfl
    · rfl
  | cons block rest ih =>
    obtain ⟨rfl, others⟩ := List.forall_mem_cons.1 stamped
    rw [List.flatMap_cons, List.map_append] at room
    -- A block leaves the window, the own entity and the capacity alone, on which the rest depends.
    have first := fun entity => stateChanged_unnamed tidy room entity
    obtain ⟨_, _, frame⟩ := session.stateChanged_frame block
    have numbers : (session.stateChanged block).value.blockZoneId = session.blockZoneId := by
      funext other
      rw [blockZoneId, blockZoneId, frame]
    have self : (session.stateChanged block).value.self = session.self := by rw [frame]
    have position : (session.stateChanged block).value.selfPosition =
        (session.brought block.time block.updates).getLast?.getD session.selfPosition := by
      rw [frame, ownPositions_eq tidy block.updates room]
    obtain ⟨objects, last, ids⟩ := ih others (stateChanged_tidy block tidy) (first 0).1
    refine ⟨fun entity => ?_, ?_, fun entity id named => ?_⟩
    · refine (objects entity).trans ?_
      rw [(first entity).2, numbers, stateChanged_capacity]
      rfl
    · refine last.trans ?_
      rw [brought_eq self (stateChanged_takes tidy room), position, List.flatMap_cons,
        brought_append, List.getLast?_append]
      cases (session.brought block.time (rest.flatMap StateBlock.updates)).getLast? <;> rfl
    · exact ids entity id (stateChanged_idOf? tidy block named)

/-- The order in which blocks of one tick are taken in makes no difference to any object but for the
id that a new one gets, nor to the position of the client's own entity, and no entity loses its
id. -/
theorem block_order_irrelevant (grid : Grid) (settings : Settings) (calls : List (Link × Call))
    (time : Time) (blocks others : List StateBlock) (concerted : Concerted time blocks)
    (perm : blocks.Perm others)
    (room : (play calls (new grid settings)).value.names.Room
      ((blocks.flatMap StateBlock.updates).map EntityState.entity)) :
    let session := (play calls (new grid settings)).value
    let one := (session.ingest blocks).value
    let another := (session.ingest others).value
    (∀ entity, (one.object? entity).map Replica.unnamed =
      (another.object? entity).map Replica.unnamed) ∧
    one.selfPosition = another.selfPosition ∧
    ∀ entity id, session.names.idOf? entity = some id →
      one.names.idOf? entity = some id ∧ another.names.idOf? entity = some id := by
  intro session one another
  obtain ⟨tidy, accounted⟩ := turns_accounted grid settings calls
  have again := concerted.perm perm
  have room' : session.names.Room ((others.flatMap StateBlock.updates).map EntityState.entity) := by
    have same : session.names.newcomers ((others.flatMap StateBlock.updates).map
        EntityState.entity) = session.names.newcomers ((blocks.flatMap StateBlock.updates).map
        EntityState.entity) := by
      ext entity
      rw [Names.mem_newcomers, Names.mem_newcomers, ((perm.flatMap_right _).map _).mem_iff]
    rw [Names.Room, same]
    exact room
  obtain ⟨objects, position, ids⟩ := ingest_eq blocks concerted.stamped tidy room
  obtain ⟨objects', position', ids'⟩ := ingest_eq others again.stamped tidy room'
  refine ⟨fun entity => ?_, ?_, fun entity id named => ⟨ids _ _ named, ids' _ _ named⟩⟩
  · refine (objects entity).trans (Eq.trans ?_ (objects' entity).symm)
    refine concerted.leavesAll_perm perm fun replica held => ?_
    obtain ⟨before, found, rfl⟩ := Option.map_eq_some_iff.1 held
    have stored := ((object?_eq_some tidy).1 found).1
    have staged := accounted.staged _ before stored
    exact ⟨staged.marked, staged.shown, staged.sent⟩
  · refine position.trans (Eq.trans ?_ position'.symm)
    have same : session.brought time (blocks.flatMap StateBlock.updates) =
        session.brought time (others.flatMap StateBlock.updates) := by
      unfold brought
      split
      · rw [concerted.updates_perm perm]
      · rfl
    rw [same]

/-- In tick 2 entity 7 moves from the zone at the origin, where 8 is gone, to one where 9 is new. -/
def crossing : List StateBlock :=
  [{ time := 2, zone := ⟨0, 0, 0⟩, removals := [7, 8] },
    { time := 2, zone := ⟨1, 0, 0⟩,
      updates := [{ entity := 7, position := .zero }, { entity := 9, position := .zero }] }]

theorem block_order_irrelevant_crossing :
    Concerted 2 crossing ∧
    let session := (play (undisturbed [sightings 1 [7, 8], .endFrame 1])
      (new ⟨⟨.one, .one, .one⟩⟩ {})).value
    let one := (session.ingest crossing).value
    let another := (session.ingest crossing.reverse).value
    (∀ entity, (one.object? entity).map Replica.unnamed =
      (another.object? entity).map Replica.unnamed) ∧
    (another.object? 7).map Replica.lastZone = some (some ⟨1, 0, 0⟩) ∧
    (another.object? 8).map Replica.removal = some .marked ∧ (another.object? 9).isSome := by
  have concerted : Concerted 2 crossing := by
    refine ⟨by decide, by decide, fun entity => ?_, fun entity _ => ?_⟩
    · simp [crossing, StateBlock.refreshes, List.countP_cons]
      split <;> omega
    · simp [crossing, List.countP_cons]
      split <;> omega
  have found := block_order_irrelevant ⟨⟨.one, .one, .one⟩⟩ {}
    (undisturbed [sightings 1 [7, 8], .endFrame 1]) 2 crossing crossing.reverse concerted
    crossing.reverse_perm.symm (by decide_cbv)
  exact ⟨concerted, found.1, by decide_cbv, by decide_cbv, by decide_cbv⟩

end Session

end AreaReplication
