import AreaReplication.Proofs.TickEnd
import AreaReplication.Proofs.Window
import Mathlib.Data.Finset.Dedup
import Mathlib.Data.Finset.Erase
import Mathlib.Data.Finset.SDiff
import Mathlib.Data.Finset.Lattice.Lemmas

/-!
# No zone in view is lost

A zone manager learns from each tick which zones a client no longer sees and which it sees from now
on. Followed over a run, these reports always add up to the window, and the window is centered on
the last known position of the client's own entity.
-/
namespace AreaReplication

namespace Window

variable {window : Window}

/-- What a move reports is the difference of the two windows. -/
structure Move.Reports (window : Window) (move : Move) : Prop where
  entered : ∀ zone, zone ∈ move.entered ↔ zone ∈ move.window.zones ∧ zone ∉ window.zones
  exited : ∀ zone, zone ∈ move.exited ↔ zone ∈ window.zones ∧ zone ∉ move.window.zones
  once : move.entered.Nodup ∧ move.exited.Nodup
  unchanged : move.changed = false → move.window = window

theorem centerOn_reports (window : Window) (next : Zone) :
    (window.centerOn next).Reports window := by
  unfold centerOn
  by_cases same : window.center = some next
  · rw [if_pos same]
    refine ⟨?_, ?_, ⟨.nil, .nil⟩, fun _ => rfl⟩
    all_goals
      intro zone
      simp
  · rw [if_neg same]
    have here : ({ window with center := some next } : Window).zones =
        window.zonesAround next := rfl
    have moved := ({ window with center := some next } : Window).zones_nodup
    cases old : window.center with
    | none =>
      have nothing : window.zones = [] := by simp [zones, old]
      refine ⟨?_, ?_, ⟨moved, .nil⟩, nofun⟩
      all_goals
        intro zone
        simp [nothing]
    | some center =>
      have before : window.zones = window.zonesAround center := by simp [zones, old]
      refine ⟨?_, ?_, ⟨moved.filter _, window.zones_nodup.filter _⟩, nofun⟩
      all_goals
        intro zone
        simp [here, before, mem_zonesAround]

@[simp] theorem centerOn_grid (next : Zone) : (window.centerOn next).window.grid = window.grid := by
  unfold centerOn
  split_ifs
  · rfl
  · split <;> rfl

@[simp] theorem centerOn_radius (next : Zone) :
    (window.centerOn next).window.radius = window.radius := by
  unfold centerOn
  split_ifs
  · rfl
  · split <;> rfl

theorem centerOn_center (next : Zone) : (window.centerOn next).window.center = some next := by
  unfold centerOn
  split_ifs with same
  · exact same
  · split <;> rfl

end Window

/-- Only an update that is older than the object is not taken over. -/
theorem Replica.update_fresh (replica : Replica) (time : Time) (zone : Zone) (zoneId : UInt32)
    (position : Vec3) (rotation : Quat) :
    (replica.update time zone zoneId position rotation).value.1 =
      decide (replica.version ≤ time) := by
  unfold update
  by_cases stale : time < replica.version
  · rw [if_pos stale, decide_eq_false (UInt64.not_le.2 stale)]
    rfl
  · rw [if_neg stale, decide_eq_true (UInt64.not_lt.1 stale)]
    rfl

namespace Session

variable (link : Link) (session : Session)

section Ingestion

variable (block : StateBlock) (zoneId : UInt32)

/-- An update is taken over unless its entity gets no id or its object is newer. -/
def accepts (state : EntityState) : Bool :=
  (session.names.assign state.entity).value.1.any fun id =>
    (session.table.getOrNew id state.entity).version ≤ block.time

/-- An update touches the ids, the objects and the position of the client's own entity. -/
theorem applyUpdate_frame (state : EntityState) : ∃ names table,
    (session.applyUpdate block zoneId state).value = { session with
      names, table
      selfPosition :=
        if session.self = some state.entity ∧ session.accepts block state then state.position
        else session.selfPosition } := by
  unfold accepts
  simp only [applyUpdate, Noted.value_bind]
  cases (session.names.assign state.entity).value.1 with
  | none =>
    simp only [Option.any_none, Bool.false_eq_true, and_false, if_false]
    exact ⟨_, _, rfl⟩
  | some id =>
    simp only [Noted.value_bind, Option.any_some, Replica.update_fresh, decide_eq_true_eq]
    by_cases fresh : (session.table.getOrNew id state.entity).version ≤ block.time
    · by_cases own : session.self = some state.entity
      · simp only [if_pos fresh, own, true_and]
        exact ⟨_, _, rfl⟩
      · simp only [if_pos fresh, own, false_and]
        exact ⟨_, _, rfl⟩
    · simp only [fresh, if_false, and_false]
      exact ⟨_, _, rfl⟩

/-- The positions that the updates of a block give the client's own entity. -/
def ownPositions : List EntityState → Session → List Vec3
  | [], _ => []
  | state :: rest, session =>
    (if session.self = some state.entity ∧ session.accepts block state then [state.position]
      else []) ++ ownPositions rest (session.applyUpdate block zoneId state).value

theorem updates_frame (states : List EntityState) : ∃ names table,
    (states.foldlM (applyUpdate block zoneId) session).value = { session with
      names, table
      selfPosition :=
        (ownPositions block zoneId states session).getLast?.getD session.selfPosition } := by
  induction states generalizing session with
  | nil => exact ⟨_, _, rfl⟩
  | cons state rest ih =>
    obtain ⟨_, _, first⟩ := session.applyUpdate_frame block zoneId state
    obtain ⟨names, table, others⟩ := ih (session.applyUpdate block zoneId state).value
    refine ⟨names, table, ?_⟩
    rw [List.foldlM_cons, Noted.value_bind, others, ownPositions, List.getLast?_append]
    generalize (ownPositions block zoneId rest _).getLast? = last
    rw [first]
    cases last with
    | none => split_ifs <;> rfl
    | some position => rfl

theorem applyRemoval_frame (entity : EntityId) :
    ∃ table, session.applyRemoval block entity = { session with table } := by
  unfold applyRemoval
  split
  · exact ⟨_, rfl⟩
  · split
    · exact ⟨_, rfl⟩
    · exact ⟨_, rfl⟩

theorem removals_frame (entities : List EntityId) :
    ∃ table, entities.foldl (applyRemoval block) session = { session with table } := by
  induction entities generalizing session with
  | nil => exact ⟨_, rfl⟩
  | cons entity rest ih =>
    obtain ⟨_, first⟩ := session.applyRemoval_frame block entity
    obtain ⟨table, others⟩ := ih (session.applyRemoval block entity)
    refine ⟨table, ?_⟩
    rw [List.foldl_cons, others, first]

/-- Of all that the window depends on, a block moves nothing but the position of the client's own
entity. -/
theorem stateChanged_frame : ∃ names table,
    (session.stateChanged block).value = { session with
      names, table
      selfPosition :=
        (ownPositions block (session.blockZoneId block) block.updates session).getLast?.getD
          session.selfPosition } := by
  obtain ⟨names, _, updated⟩ :=
    session.updates_frame block (session.blockZoneId block) block.updates
  obtain ⟨table, removed⟩ := removals_frame
    (block.updates.foldlM (applyUpdate block (session.blockZoneId block)) session).value block
    block.removals
  refine ⟨names, table, ?_⟩
  simp only [stateChanged, Noted.value_bind, Noted.value_pure]
  rw [removed, updated]

end Ingestion

section Ending

/-- A tick that fails leaves the view alone; one that succeeds moves the window. -/
inductive Viewed : Except SendError Unit × Session → Prop where
  | failed {error : SendError} {after : Session} {intake : Intake} {outbox : Outbox}
      {table : ReplicaTable} {names : Names}
      (kept : after = { session with intake, outbox, table, names }) :
      Viewed (.error error, after)
  | succeeded {after : Session} {intake : Intake} {outbox : Outbox} {table : ReplicaTable}
      {names : Names} {stats : FrameStats}
      (moved : after = { session.recenter.value with intake, outbox, table, names, stats }) :
      Viewed (.ok (), after)

theorem recenter_value : session.recenter.value =
    if session.self.isSome ∧ (session.window.follow session.selfPosition).changed then
      { session with
        window := (session.window.follow session.selfPosition).window
        entered := session.entered ++ (session.window.follow session.selfPosition).entered
        exited := session.exited ++ (session.window.follow session.selfPosition).exited
        zonesChanged := true }
    else session := by
  unfold recenter
  dsimp only
  by_cases own : session.self.isSome
  · by_cases changed : (session.window.follow session.selfPosition).changed
    · rw [if_pos own, if_pos changed, if_pos ⟨own, changed⟩]
      rfl
    · rw [if_pos own, if_neg changed, if_neg fun both => changed both.2]
      rfl
  · rw [if_neg own, if_neg fun both => own both.1]
    rfl

theorem recenter_frame (intake : Intake) (outbox : Outbox) (table : ReplicaTable) (names : Names) :
    ({ session with intake, outbox, table, names } : Session).recenter.value =
      { session.recenter.value with intake, outbox, table, names } := by
  simp only [recenter_value]
  split_ifs <;> rfl

theorem endFrame_viewed (time : Time) : session.Viewed (session.endFrame link time).value := by
  simp only [endFrame, Noted.value_bind]
  generalize (session.intake.drain session.outbox session.table).value = drained
  obtain ⟨acks, intake, outbox, table⟩ := drained
  generalize (outbox.startFrame link time session.window.center).value = started
  obtain ⟨outcome, opened⟩ := started
  cases outcome with
  | error error => exact .failed rfl
  | ok =>
    simp only [Noted.value_bind]
    generalize (Projection.project link time table _ opened).value = projected
    obtain ⟨outcome, table, names, outbox⟩ := projected
    cases outcome with
    | error error => exact .failed rfl
    | ok summary =>
      rw [Noted.value_bind, recenter_frame]
      exact .succeeded rfl

/-- The end of a tick moves the window at most to another center. -/
structure Still (after : Session) : Prop where
  grid : after.window.grid = session.window.grid
  radius : after.window.radius = session.window.radius
  selfPosition : after.selfPosition = session.selfPosition
  self : after.self = session.self

theorem recenter_still : session.Still session.recenter.value := by
  rw [recenter_value]
  split_ifs
  · exact ⟨Window.centerOn_grid _, Window.centerOn_radius _, rfl, rfl⟩
  · exact ⟨rfl, rfl, rfl, rfl⟩

theorem endFrame_still (time : Time) : session.Still (session.endFrame link time).value.2 := by
  have ending := session.endFrame_viewed link time
  generalize (session.endFrame link time).value = result at ending ⊢
  cases ending with
  | failed kept =>
    rw [kept]
    exact ⟨rfl, rfl, rfl, rfl⟩
  | succeeded moved =>
    obtain ⟨grid, radius, selfPosition, self⟩ := session.recenter_still
    rw [moved]
    exact ⟨grid, radius, selfPosition, self⟩

end Ending

/-- The positions of the client's own entity that an operation of a run brings, in order. -/
def Turn.positions (turn : Turn) : List Vec3 :=
  match turn.call with
  | .setSelf _ position => [position]
  | .stateChanged block =>
    ownPositions block (turn.before.blockZoneId block) block.updates turn.before
  | _ => []

def lastPosition? (past : List Turn) : Option Vec3 := (past.flatMap Turn.positions).getLast?

/-- What a run has recorded of the client's own entity is where the session takes it to be. -/
structure Located (grid : Grid) (past : List Turn) (session : Session) : Prop where
  grid : session.window.grid = grid
  position : session.selfPosition = (lastPosition? past).getD .zero
  known : session.self.isSome → (lastPosition? past).isSome

theorem Located.turn {grid : Grid} {past : List Turn} {turn : Turn}
    (h : Located grid past turn.before) : Located grid (past ++ [turn]) turn.after := by
  have last : lastPosition? (past ++ [turn]) = turn.positions.getLast?.or (lastPosition? past) := by
    simp [lastPosition?, List.getLast?_append]
  -- Operations that bring no position leave all three parts as they were.
  have same : turn.positions = [] → turn.after.window.grid = turn.before.window.grid →
      turn.after.selfPosition = turn.before.selfPosition → turn.after.self = turn.before.self →
      Located grid (past ++ [turn]) turn.after := by
    intro none hgrid hposition hself
    rw [none, List.getLast?_nil, Option.none_or] at last
    exact ⟨hgrid.trans h.grid, by rw [hposition, last, h.position],
      by rw [hself, last]; exact h.known⟩
  obtain ⟨link, before, call⟩ := turn
  cases call with
  | setSelf entity position => exact ⟨h.grid, by rw [last]; rfl, fun _ => by rw [last]; rfl⟩
  | stateChanged block =>
    obtain ⟨_, _, frame⟩ := before.stateChanged_frame block
    have after : Turn.after ⟨link, before, .stateChanged block⟩ = _ := frame
    refine ⟨?_, ?_, fun own => ?_⟩
    · rw [after]
      exact h.grid
    · rw [after, last, h.position]
      simp only [Turn.positions]
      cases (ownPositions block (before.blockZoneId block) block.updates before).getLast? <;> rfl
    · rw [after] at own
      rw [last, Option.isSome_or, h.known own, Bool.or_true]
  | beginFrame =>
    obtain ⟨_, _, _, begun⟩ := before.beginFrame_frame
    have after : Turn.after ⟨link, before, .beginFrame⟩ = _ := begun
    refine same rfl ?_ ?_ ?_
    all_goals
      rw [after]
  | endFrame time =>
    have still := before.endFrame_still link time
    exact same rfl still.grid still.selfPosition still.self
  | _ => exact same rfl rfl rfl rfl

/-- Whether a tick succeeds is settled before the window moves. -/
theorem endFrame_ok_iff {time : Time} : (session.endFrame link time).value.1 = .ok () ↔
    (session.sweep link time).value.1 = .ok () := by
  have swept := session.endFrame_swept link time
  generalize (session.sweep link time).value = sweep at swept ⊢
  generalize (session.endFrame link time).value = after at swept ⊢
  cases swept with
  | broken => exact iff_of_false nofun nofun
  | finished => exact iff_of_true rfl rfl

/-- A successful tick centers the window where the own entity is taken to be. -/
theorem endFrame_center {time : Time} (ok : (session.endFrame link time).value.1 = .ok ())
    (own : session.self.isSome) : (session.endFrame link time).value.2.window.center =
      some (session.window.grid.zoneAt session.selfPosition) := by
  have ending := session.endFrame_viewed link time
  generalize (session.endFrame link time).value = result at ending ok ⊢
  cases ending with
  | failed => cases ok
  | succeeded moved =>
    have center := @Window.centerOn_center session.window
      (session.window.grid.zoneAt session.selfPosition)
    have reports := session.window.centerOn_reports
      (session.window.grid.zoneAt session.selfPosition)
    rw [moved, recenter_value]
    split_ifs with move
    · exact center
    · have still := reports.unchanged (by simpa [own, Window.follow] using move)
      rwa [still] at center

end Session

section Manager

/-- A manager lets go of a zone that it keeps. -/
def withdraw (kept : Finset Zone) (zone : Zone) : Option (Finset Zone) :=
  if zone ∈ kept then some (kept.erase zone) else none

/-- A manager takes a zone that it does not keep yet. -/
def takeUp (kept : Finset Zone) (zone : Zone) : Option (Finset Zone) :=
  if zone ∈ kept then none else some (insert zone kept)

theorem withdraw_all {zones : List Zone} {kept : Finset Zone} (once : zones.Nodup)
    (present : ∀ zone ∈ zones, zone ∈ kept) :
    zones.foldlM withdraw kept = some (kept \ zones.toFinset) := by
  induction zones generalizing kept with
  | nil => simp
  | cons zone rest ih =>
    obtain ⟨fresh, once⟩ := List.nodup_cons.1 once
    obtain ⟨here, others⟩ := List.forall_mem_cons.1 present
    have left : ∀ other ∈ rest, other ∈ kept.erase zone := by
      intro other ho
      have apart : other ≠ zone := fun same => fresh (same ▸ ho)
      exact Finset.mem_erase.2 ⟨apart, others other ho⟩
    rw [List.foldlM_cons, withdraw, if_pos here, Option.bind_eq_bind, Option.bind_some,
      ih once left]
    congr 1
    ext other
    simp only [Finset.mem_sdiff, Finset.mem_erase, List.toFinset_cons, Finset.mem_insert]
    tauto

theorem takeUp_all {zones : List Zone} {kept : Finset Zone} (once : zones.Nodup)
    (absent : ∀ zone ∈ zones, zone ∉ kept) :
    zones.foldlM takeUp kept = some (kept ∪ zones.toFinset) := by
  induction zones generalizing kept with
  | nil => simp
  | cons zone rest ih =>
    obtain ⟨fresh, once⟩ := List.nodup_cons.1 once
    obtain ⟨here, others⟩ := List.forall_mem_cons.1 absent
    have left : ∀ other ∈ rest, other ∉ insert zone kept := by
      intro other ho
      have apart : other ≠ zone := fun same => fresh (same ▸ ho)
      rw [Finset.mem_insert, not_or]
      exact ⟨apart, others other ho⟩
    rw [List.foldlM_cons, takeUp, if_neg here, Option.bind_eq_bind, Option.bind_some, ih once left]
    congr 1
    ext other
    simp only [Finset.mem_union, List.toFinset_cons, Finset.mem_insert]
    tauto

/-- A manager that keeps the zones of a window can follow its move. -/
theorem Window.Move.Reports.followed {window : Window} {move : Move} (h : move.Reports window) :
    (do
      let left ← move.exited.foldlM withdraw window.zones.toFinset
      move.entered.foldlM takeUp left) = some move.window.zones.toFinset := by
  have present : ∀ zone ∈ move.exited, zone ∈ window.zones.toFinset :=
    fun zone hz => List.mem_toFinset.2 ((h.exited zone).1 hz).1
  have absent : ∀ zone ∈ move.entered,
      zone ∉ window.zones.toFinset \ move.exited.toFinset := by
    intro zone hz held
    have kept := (Finset.mem_sdiff.1 held).1
    exact ((h.entered zone).1 hz).2 (List.mem_toFinset.1 kept)
  rw [withdraw_all h.once.2 present, Option.bind_eq_bind, Option.bind_some,
    takeUp_all h.once.1 absent]
  congr 1
  ext zone
  simp only [Finset.mem_union, Finset.mem_sdiff, List.mem_toFinset, h.entered, h.exited]
  tauto

end Manager

namespace Session

/-- What a manager makes of the zones it keeps when a tick has ended: the exited ones go, then the
entered ones come. There is no answer if one of them cannot. -/
def reported (session : Session) (kept : Finset Zone) : Option (Finset Zone) :=
  if session.zonesChanged then do
    let left ← session.exited.foldlM withdraw kept
    session.entered.foldlM takeUp left
  else
    some kept

def Turn.reported (kept : Finset Zone) (turn : Turn) : Option (Finset Zone) :=
  match turn.call with
  | .endFrame _ => turn.after.reported kept
  | _ => some kept

/-- Every end of a tick comes after a beginning of its own; `begun` says whether there has been one
since the last end. -/
def Framed : (begun : Bool) → List (Link × Call) → Prop
  | _, [] => True
  | _, (_, .beginFrame) :: rest => Framed true rest
  | begun, (_, .endFrame _) :: rest => begun ∧ Framed false rest
  | begun, _ :: rest => Framed begun rest

/-- A manager that took every report keeps the zones of the window, and the lists hold no more than
the last move. -/
structure Attended (begun : Bool) (past : List Turn) (session : Session) : Prop where
  kept : past.foldlM Turn.reported ∅ = some session.window.zones.toFinset
  fresh : begun → session.zonesChanged = false
  cleared : session.zonesChanged = false → session.entered = [] ∧ session.exited = []

namespace Attended

variable {begun : Bool} {past : List Turn} {link : Link} {before : Session}

/-- Operations other than the end of a tick report nothing. -/
theorem quiet (h : Attended begun past before) {turn : Turn} {after : Bool}
    (silent : ∀ kept, turn.reported kept = some kept)
    (window : turn.after.window = before.window)
    (fresh : after → turn.after.zonesChanged = false)
    (cleared : turn.after.zonesChanged = false →
      turn.after.entered = [] ∧ turn.after.exited = []) :
    Attended after (past ++ [turn]) turn.after := by
  refine ⟨?_, fresh, cleared⟩
  rw [List.foldlM_append, h.kept, window]
  simp [silent]

theorem beginFrame (h : Attended begun past before) :
    Attended true (past ++ [⟨link, before, .beginFrame⟩])
      (Turn.after ⟨link, before, .beginFrame⟩) := by
  by_cases changed : before.zonesChanged
  · have begins : before.beginFrame =
        { before with entered := [], exited := [], zonesChanged := false } := if_pos changed
    refine h.quiet (fun _ => rfl) ?_ (fun _ => ?_) (fun _ => ?_)
    all_goals
      simp [Turn.after, run, begins]
  · have begins : before.beginFrame = before := if_neg changed
    have closed : before.zonesChanged = false := by simpa using changed
    refine h.quiet (fun _ => rfl) ?_ (fun _ => ?_) (fun _ => ?_)
    · exact congrArg window begins
    · exact (congrArg zonesChanged begins).trans closed
    · have empty := h.cleared closed
      simpa only [Turn.after, run, Noted.value_pure, begins] using empty

/-- The end of a tick reports the move of the window that it makes. -/
theorem endFrame (h : Attended true past before) (time : Time) :
    Attended false (past ++ [⟨link, before, .endFrame time⟩])
      (Turn.after ⟨link, before, .endFrame time⟩) := by
  -- The tick was begun, so the lists hold nothing from before and will hold this move alone.
  have closed := h.fresh rfl
  obtain ⟨noEntered, noExited⟩ := h.cleared closed
  have ending := before.endFrame_viewed link time
  have reported : (Turn.after ⟨link, before, .endFrame time⟩).reported
        before.window.zones.toFinset =
        some (Turn.after ⟨link, before, .endFrame time⟩).window.zones.toFinset ∧
      ((Turn.after ⟨link, before, .endFrame time⟩).zonesChanged = false →
        (Turn.after ⟨link, before, .endFrame time⟩).entered = [] ∧
        (Turn.after ⟨link, before, .endFrame time⟩).exited = []) := by
    simp only [Turn.after, run]
    generalize (before.endFrame link time).value = result at ending ⊢
    cases ending with
    | failed kept =>
      rw [kept]
      simp only [Session.reported, closed, noEntered, noExited]
      exact ⟨rfl, fun _ => ⟨trivial, trivial⟩⟩
    | succeeded moved =>
      rw [moved]
      have reports := before.window.centerOn_reports
        (before.window.grid.zoneAt before.selfPosition)
      rw [recenter_value]
      split_ifs with move
      · rw [noEntered, noExited]
        exact ⟨reports.followed, fun kept => by cases kept⟩
      · simp only [Session.reported, closed, noEntered, noExited]
        exact ⟨rfl, fun _ => ⟨trivial, trivial⟩⟩
  refine ⟨?_, fun begun => absurd begun Bool.false_ne_true, reported.2⟩
  rw [List.foldlM_append, h.kept]
  simpa [Turn.reported] using reported.1

end Attended

theorem Framed.attended {calls : List (Link × Call)} {begun : Bool} {past : List Turn}
    {session : Session} (framed : Framed begun calls) (h : Attended begun past session) :
    ∃ open', Attended open' (past ++ turns calls session) (play calls session).value := by
  induction calls generalizing begun past session with
  | nil => exact ⟨begun, by simpa [turns, play] using h⟩
  | cons first rest ih =>
    obtain ⟨link, call⟩ := first
    have onward : ∀ next, Framed next rest → Attended next (past ++ [⟨link, session, call⟩])
        (Turn.after ⟨link, session, call⟩) → ∃ open', Attended open'
          (past ++ turns ((link, call) :: rest) session)
          (play ((link, call) :: rest) session).value := by
      intro next remaining kept
      have done := ih remaining kept
      rwa [List.append_assoc] at done
    cases call with
    | beginFrame => exact onward true framed h.beginFrame
    | endFrame time =>
      obtain ⟨rfl, remaining⟩ := framed
      exact onward false remaining (h.endFrame time)
    | stateChanged block =>
      obtain ⟨_, _, frame⟩ := session.stateChanged_frame block
      have after : Turn.after ⟨link, session, .stateChanged block⟩ = _ := frame
      refine onward begun framed (h.quiet (fun _ => rfl) ?_ (fun hb => ?_) (fun hc => ?_))
      · rw [after]
      · rw [after]
        exact h.fresh hb
      · rw [after] at hc ⊢
        exact h.cleared hc
    | _ => exact onward begun framed (h.quiet (fun _ => rfl) rfl h.fresh h.cleared)

end Session

open Session

/-- A manager that starts with no zone and, whenever the zones have changed at the end of a tick,
lets go of the exited ones and takes the entered ones, never finds one of them gone or there
already, and keeps exactly the zones of the window, in any run in which ticks are begun before they
are ended. After every tick that succeeds with an own entity, the window is centered on the zone of
the position recorded last. -/
theorem window_follows_reports (grid : Grid) (settings : Settings) (calls : List (Link × Call))
    (framed : Framed false calls) :
    ((turns calls (new grid settings)).foldlM Turn.reported ∅ =
        some (play calls (new grid settings)).value.window.zones.toFinset ∧
      (play calls (new grid settings)).value.window.zones.Nodup) ∧
    ∀ past turn rest time, turns calls (new grid settings) = past ++ turn :: rest →
      turn.call = .endFrame time → turn.outcome = .ok () → turn.before.self.isSome →
      ∃ position, lastPosition? past = some position ∧
        turn.after.window.center = some (grid.zoneAt position) := by
  have start : Attended false [] (new grid settings) := ⟨rfl, nofun, fun _ => ⟨rfl, rfl⟩⟩
  obtain ⟨_, attended⟩ := framed.attended start
  refine ⟨⟨attended.kept, Window.zones_nodup _⟩, ?_⟩
  intro past turn rest time split ended ok own
  obtain ⟨done, left, rfl, rfl, remaining⟩ := turns_eq_append split
  have unset : Located grid [] (new grid settings) := ⟨rfl, rfl, nofun⟩
  obtain ⟨-, located⟩ := turns_keep (P := Located grid) (fun _ _ _ h => h.turn) done
    (new_tidy grid settings) unset
  cases left with
  | nil => cases remaining
  | cons first left =>
    obtain ⟨link, call⟩ := first
    obtain ⟨rfl, -⟩ := List.cons.inj remaining
    dsimp only at ended own
    subst ended
    obtain ⟨position, recorded⟩ := Option.isSome_iff_exists.1 (located.known own)
    have center := endFrame_center link _ ok own
    rw [located.grid, located.position] at center
    rw [List.nil_append] at recorded center
    refine ⟨position, recorded, ?_⟩
    rw [recorded] at center
    exact center

/-- A client's own entity 7 arrives and is seen in tick 1, at the origin. -/
def arrival : List (Link × Call) :=
  undisturbed [.setSelf 7 ⟨.one, .one, .one⟩, .beginFrame, sightings 1 [7]]

theorem window_follows_reports_arrival :
    Framed false (arrival ++ undisturbed [.endFrame 1]) ∧
    (turns (arrival ++ undisturbed [.endFrame 1]) (new ⟨⟨.one, .one, .zero⟩⟩ {})).foldlM
        Turn.reported ∅ =
      some (play (arrival ++ undisturbed [.endFrame 1])
        (new ⟨⟨.one, .one, .zero⟩⟩ {})).value.window.zones.toFinset ∧
    (play (arrival ++ undisturbed [.endFrame 1])
      (new ⟨⟨.one, .one, .zero⟩⟩ {})).value.window.center =
      some (Grid.zoneAt ⟨⟨.one, .one, .zero⟩⟩ .zero) := by
  have framed : Framed false (arrival ++ undisturbed [.endFrame 1]) := by
    simp [arrival, undisturbed, sightings, Framed]
  obtain ⟨⟨kept, -⟩, centered⟩ := window_follows_reports ⟨⟨.one, .one, .zero⟩⟩ {} _ framed
  have split : turns (arrival ++ undisturbed [.endFrame 1]) (new ⟨⟨.one, .one, .zero⟩⟩ {}) =
      turns arrival (new ⟨⟨.one, .one, .zero⟩⟩ {}) ++
        [⟨Line.link {}, (play arrival (new ⟨⟨.one, .one, .zero⟩⟩ {})).value, .endFrame 1⟩] := rfl
  obtain ⟨position, last, center⟩ := centered _ _ _ 1 split rfl
    ((endFrame_ok_iff _ _).2 (by decide_cbv)) (by decide_cbv)
  have origin : lastPosition? (turns arrival (new ⟨⟨.one, .one, .zero⟩⟩ {})) = some .zero := by
    decide_cbv
  obtain rfl : Vec3.zero = position := Option.some.inj (origin.symm.trans last)
  exact ⟨framed, kept, center⟩

end AreaReplication
