import AreaReplication.Proofs.Core
import Mathlib

/-!
# Runs of a session

A caller may go on after a failure, so a run performs all its operations. Every operation is a path
of steps of one kind, and an invariant is carried over a run by what it keeps of each kind.

Beside the theorems, single runs are worked out by `decide_cbv`. It computes with the equations of
each library function that a run goes through, which are found all over Mathlib. So this module,
which every run builds on, is the one that imports it whole.
-/
namespace AreaReplication

/-- A step of the outbox alone. -/
def Core.Boxed (link : Link) (core : Core) (events : List Event) (next : Core) : Prop :=
  ∃ box, Outbox.Step link core.box events box ∧ next = { core with box }

namespace Session

open AreaReplication.Core

/-- The steps of an operation that finds `acked` in the queue. -/
def Call.Step (link : Link) (acked : List MessageId) : Call → Core → List Event → Core → Prop
  | .stateChanged block => Input block.time
  | .endFrame time => Output link time acked
  | _ => Boxed link

variable (link : Link) (session : Session)

/-- A tick begins by forgetting the zones that were reported before it. -/
theorem beginFrame_frame : ∃ entered exited zonesChanged,
    session.beginFrame = { session with entered, exited, zonesChanged } := by
  unfold beginFrame
  split_ifs
  · exact ⟨[], [], false, rfl⟩
  · exact ⟨_, _, _, rfl⟩

theorem run_path (tidy : session.core.Tidy) (call : Call) :
    Path (call.Step link (session.intake.queue.map Ack.id)) session.core
      (session.run link call).events (session.run link call).value.2.core := by
  cases call with
  | setSelf entity position => exact .refl _
  | setSizeLimit bytes => exact .single ⟨_, .resize session.outbox bytes, rfl⟩
  | post ack => exact .refl _
  | beginFrame =>
    obtain ⟨_, _, _, begun⟩ := session.beginFrame_frame
    simp only [run, Noted.events_pure, Noted.value_pure, begun]
    exact .refl _
  | stateChanged block =>
    simp only [run, Noted.events_bind, Noted.value_bind, Noted.events_pure, Noted.value_pure,
      List.append_nil]
    exact session.stateChanged_path block
  | endFrame time => exact endFrame_path link time session tidy
  | endBlock =>
    simp only [run, endBlock, Noted.events_bind, Noted.value_bind, Noted.events_pure,
      Noted.value_pure, List.append_nil]
    have lift : ∀ a es b, Outbox.Step link a es b →
        Boxed link ⟨session.names, session.table, a⟩ es ⟨session.names, session.table, b⟩ :=
      fun _ _ _ step => ⟨_, step, rfl⟩
    exact (session.outbox.flush_path link).map (Core.mk session.names session.table) lift

theorem stateChanged_intake (block : StateBlock) :
    (session.stateChanged block).value.intake = session.intake := by
  have update : ∀ (session : Session) (zoneId : UInt32) (state : EntityState),
      (session.applyUpdate block zoneId state).value.intake = session.intake := by
    intro session zoneId state
    simp only [applyUpdate, Noted.value_bind]
    split
    · rfl
    · simp only [Noted.value_bind]
      split_ifs <;> rfl
  have updates : ∀ (states : List EntityState) (session : Session) (zoneId : UInt32),
      (states.foldlM (applyUpdate block zoneId) session).value.intake = session.intake := by
    intro states
    induction states with
    | nil => exact fun _ _ => rfl
    | cons state rest ih => exact fun session zoneId => (ih _ zoneId).trans (update _ zoneId state)
  have removals : ∀ (entities : List EntityId) (session : Session),
      (entities.foldl (applyRemoval block) session).intake = session.intake := by
    intro entities
    induction entities with
    | nil => exact fun _ => rfl
    | cons entity rest ih =>
      intro session
      refine (ih _).trans ?_
      unfold applyRemoval
      split
      · rfl
      · split <;> rfl
  exact (removals _ _).trans (updates _ _ _)

theorem endFrame_queue (time : Time) :
    (session.endFrame link time).value.2.intake.queue = [] := by
  simp only [endFrame, Intake.drain, Noted.value_bind, Noted.value_pure]
  split
  · rfl
  · simp only [Noted.value_bind]
    split
    · rfl
    · simp only [Noted.value_bind, Noted.value_pure, recenter]
      split_ifs <;> rfl

/-- An acknowledgment enters the queue only when it is posted. -/
theorem run_queue {call : Call} {ack : Ack}
    (queued : ack ∈ (session.run link call).value.2.intake.queue) :
    ack ∈ session.intake.queue ∨ call = .post ack := by
  cases call with
  | post other =>
    rcases List.mem_append.1 queued with h | h
    · exact .inl h
    · exact .inr (by rw [List.mem_singleton.1 h])
  | beginFrame =>
    obtain ⟨_, _, _, begun⟩ := session.beginFrame_frame
    simp only [run, Noted.value_pure, begun] at queued
    exact .inl queued
  | stateChanged block => exact .inl (session.stateChanged_intake block ▸ queued)
  | endFrame time =>
    have none : ack ∈ (session.endFrame link time).value.2.intake.queue := queued
    rw [endFrame_queue] at none
    cases none
  | _ => exact .inl queued

theorem Call.Step.tidy {call : Call} {acked : List MessageId} {core next : Core}
    {events : List Event} (h : call.Step link acked core events next) (ht : core.Tidy) :
    next.Tidy := by
  cases call with
  | stateChanged => exact Input.tidy h ht
  | endFrame => exact Output.tidy h ht
  | _ =>
    obtain ⟨box, -, rfl⟩ := h
    exact ht.box box

variable {link session}

/-- What every step of an operation keeps, the operation keeps. -/
theorem run_keeps {P : List Event → Core → Prop} (call : Call) (events : List Event)
    (step_keeps : ∀ events core es next, core.Tidy → P events core →
      call.Step link (session.intake.queue.map Ack.id) core es next → P (events ++ es) next)
    (tidy : session.core.Tidy) (hp : P events session.core) :
    (session.run link call).value.2.core.Tidy ∧
      P (events ++ (session.run link call).events) (session.run link call).value.2.core :=
  (run_path link session tidy call).keeps (P := fun events core => core.Tidy ∧ P events core)
    (fun _ _ _ _ h step => ⟨step.tidy link h.1, step_keeps _ _ _ _ h.1 h.2 step⟩) events
    ⟨tidy, hp⟩

theorem run_tidy (call : Call) (tidy : session.core.Tidy) :
    (session.run link call).value.2.core.Tidy :=
  (run_keeps (P := fun _ _ => True) call [] (fun _ _ _ _ _ _ _ => trivial) tidy trivial).1

theorem new_tidy (grid : Grid) (settings : Settings) : (new grid settings).core.Tidy := by
  have empty := ReplicaTable.get?_empty settings.historyCapacity
  exact ⟨fun id replica h => absurd h (empty id replica),
    fun id replica h => absurd h (empty id replica), Names.new_sound _,
    fun id replica h => absurd h (empty id replica)⟩

def play : List (Link × Call) → Session → Noted Session
  | [], session => return session
  | (link, call) :: rest, session => do
    let (_, session) ← session.run link call
    session.play rest

structure Turn where
  link : Link
  before : Session
  call : Call

namespace Turn

def outcome (turn : Turn) : Except SendError Unit :=
  (turn.before.run turn.link turn.call).value.1

def after (turn : Turn) : Session := (turn.before.run turn.link turn.call).value.2

def events (turn : Turn) : List Event := (turn.before.run turn.link turn.call).events

end Turn

def turns : List (Link × Call) → Session → List Turn
  | [], _ => []
  | (link, call) :: rest, session =>
    let turn : Turn := ⟨link, session, call⟩
    turn :: turns rest turn.after

def eventsOf (past : List Turn) : List Event := past.flatMap Turn.events

theorem play_events (calls : List (Link × Call)) (session : Session) :
    (play calls session).events = eventsOf (turns calls session) := by
  induction calls generalizing session with
  | nil => rfl
  | cons first rest ih =>
    obtain ⟨link, call⟩ := first
    rw [turns, eventsOf, List.flatMap_cons, ← eventsOf, ← ih]
    rfl

theorem turns_eq_append {calls : List (Link × Call)} {session : Session} {past rest : List Turn}
    (h : turns calls session = past ++ rest) : ∃ done left, calls = done ++ left ∧
      turns done session = past ∧ turns left (play done session).value = rest := by
  induction past generalizing calls session with
  | nil => exact ⟨[], calls, rfl, rfl, h⟩
  | cons turn past ih =>
    cases calls with
    | nil => cases h
    | cons first others =>
      obtain ⟨link, call⟩ := first
      obtain ⟨rfl, split⟩ := List.cons.inj h
      obtain ⟨done, left, rfl, past, rest⟩ := ih split
      exact ⟨(link, call) :: done, left, rfl, congrArg _ past, rest⟩

/-- Every call meets a transport that takes all messages and a clock that stands still. -/
def undisturbed (calls : List Call) : List (Link × Call) :=
  calls.map fun call => (Line.link {}, call)

/-- The block of a tick at which the given entities are at the origin. -/
def sightings (time : Time) (entities : List EntityId) : Call :=
  .stateChanged {
    time, zone := ⟨0, 0, 0⟩
    updates := entities.map ({ entity := ·, position := .zero }) }

/-- What every operation keeps, a run keeps. -/
theorem turns_keep {P : List Turn → Session → Prop}
    (keeps : ∀ past turn, turn.before.core.Tidy → P past turn.before →
      P (past ++ [turn]) turn.after)
    (calls : List (Link × Call)) {past : List Turn} {session : Session}
    (tidy : session.core.Tidy) (hp : P past session) :
    (play calls session).value.core.Tidy ∧
      P (past ++ turns calls session) (play calls session).value := by
  induction calls generalizing past session with
  | nil => exact ⟨tidy, by simpa [turns, play] using hp⟩
  | cons first rest ih =>
    obtain ⟨link, call⟩ := first
    have onward := ih (run_tidy call tidy) (keeps past ⟨link, session, call⟩ tidy hp)
    rw [List.append_assoc] at onward
    exact onward

theorem play_keeps {P : List Event → Core → Prop}
    (step_keeps : ∀ link call acked events core es next, core.Tidy → P events core →
      Call.Step link acked call core es next → P (events ++ es) next)
    (calls : List (Link × Call)) {session : Session} {events : List Event}
    (tidy : session.core.Tidy) (hp : P events session.core) :
    (play calls session).value.core.Tidy ∧
      P (events ++ (play calls session).events) (play calls session).value.core := by
  induction calls generalizing session events with
  | nil => exact ⟨tidy, by simpa [play] using hp⟩
  | cons first rest ih =>
    obtain ⟨link, call⟩ := first
    obtain ⟨tidy, hp⟩ := run_keeps call events
      (fun events core es next => step_keeps link call _ events core es next) tidy hp
    have onward := ih tidy hp
    simpa only [play, Noted.value_bind, Noted.events_bind, List.append_assoc] using onward

end Session

/-- What the times of a run are known to keep to: ticks that come are not before `floor`, and the
tick under way, if a block has begun one, is `tick`. -/
structure Pace where
  floor : Nat := 0
  tick : Option Time := none

namespace Pace

open Session AreaReplication.Core

/-- The tick that has begun, or any from the floor on. -/
def Admits (pace : Pace) (time : Time) : Prop :=
  pace.floor ≤ time.toNat ∧ ∀ tick, pace.tick = some tick → time = tick

/-- Blocks are stamped with the time of their tick, and ticks come in strictly increasing order. -/
def Allows (pace : Pace) : Call → Prop
  | .stateChanged block => pace.Admits block.time
  | .endFrame time => pace.Admits time
  | _ => True

def after (pace : Pace) : Call → Pace
  | .stateChanged block => { pace with tick := some block.time }
  | .endFrame time => { floor := time.toNat + 1 }
  | _ => pace

/-- No time of the run so far reaches this. -/
def ceiling (pace : Pace) : Nat := pace.tick.elim pace.floor fun tick => tick.toNat + 1

theorem Admits.ceiling_le {pace : Pace} {time : Time} (h : pace.Admits time) :
    pace.ceiling ≤ time.toNat + 1 := by
  obtain ⟨hfloor, htick⟩ := h
  unfold ceiling
  cases ht : pace.tick with
  | none =>
    simp only [Option.elim_none]
    omega
  | some tick => simp [htick tick ht]

/-- Every operation keeps to the pace set by those before it. -/
def Paced : Pace → List (Link × Call) → Prop
  | _, [] => True
  | pace, (_, call) :: rest => pace.Allows call ∧ Paced (pace.after call) rest

def afterAll (pace : Pace) (calls : List (Link × Call)) : Pace :=
  calls.foldl (fun pace call => pace.after call.2) pace

theorem paced_append {pace : Pace} {calls others : List (Link × Call)} :
    Paced pace (calls ++ others) ↔ Paced pace calls ∧ Paced (pace.afterAll calls) others := by
  induction calls generalizing pace with
  | nil => exact (iff_of_eq (true_and _)).symm
  | cons first rest ih => exact (and_congr_right fun _ => ih).trans and_assoc.symm

/-- What every operation at the pace of which `Q` holds keeps, a run of such operations keeps. -/
theorem Paced.keeps {P : Pace → List Turn → Session → Prop} {Q : Turn → Prop}
    (keeps : ∀ pace past turn, turn.before.core.Tidy → pace.Allows turn.call → Q turn →
      P pace past turn.before → P (pace.after turn.call) (past ++ [turn]) turn.after)
    {calls : List (Link × Call)} {pace : Pace} {past : List Turn} {session : Session}
    (paced : Paced pace calls) (all : ∀ turn ∈ turns calls session, Q turn)
    (tidy : session.core.Tidy) (hp : P pace past session) :
    (play calls session).value.core.Tidy ∧
      P (pace.afterAll calls) (past ++ turns calls session) (play calls session).value := by
  induction calls generalizing pace past session with
  | nil => exact ⟨tidy, by rwa [turns, List.append_nil]⟩
  | cons first rest ih =>
    obtain ⟨link, call⟩ := first
    obtain ⟨allowed, paced⟩ := paced
    let turn : Turn := ⟨link, session, call⟩
    have next := keeps pace past turn tidy allowed (all turn List.mem_cons_self) hp
    have onward := ih paced (fun other ho => all other (List.mem_cons_of_mem _ ho))
      (run_tidy call tidy) next
    rw [List.append_assoc] at onward
    exact onward

/-- So it is kept up to any operation of the run. -/
theorem Paced.split {P : Pace → List Turn → Session → Prop} {Q : Turn → Prop}
    (keeps : ∀ pace past turn, turn.before.core.Tidy → pace.Allows turn.call → Q turn →
      P pace past turn.before → P (pace.after turn.call) (past ++ [turn]) turn.after)
    {calls : List (Link × Call)} {pace : Pace} {session : Session} {past rest : List Turn}
    {turn : Turn} (paced : Paced pace calls)
    (all : ∀ turn ∈ turns calls session, Q turn) (tidy : session.core.Tidy)
    (hp : P pace [] session) (split : turns calls session = past ++ turn :: rest) :
    ∃ now left, turn.before.core.Tidy ∧ now.Allows turn.call ∧ P now past turn.before ∧
      Paced (now.after turn.call) left ∧ turns left turn.after = rest := by
  obtain ⟨done, others, rfl, rfl, remaining⟩ := turns_eq_append split
  obtain ⟨before, onward⟩ := paced_append.1 paced
  have reached := Paced.keeps keeps before
    (fun other ho => all other (by rw [split]; exact List.mem_append_left _ ho)) tidy hp
  cases others with
  | nil => cases remaining
  | cons first left =>
    obtain ⟨link, call⟩ := first
    obtain ⟨rfl, rfl⟩ := List.cons.inj remaining
    exact ⟨_, left, reached.1, onward.1, reached.2, onward.2, rfl⟩

/-- What is kept of a run at a pace in which only `posted` messages are acknowledged:
`P shown current` holds with all times shown to the client before `shown` and all times taken over
before `current`. -/
structure Keeps (posted : MessageId → Prop) (P : Nat → Nat → List Event → Core → Prop) : Prop where
  grow : ∀ {shown current shown' current' events core}, shown ≤ shown' → current ≤ current' →
    P shown current events core → P shown' current' events core
  input : ∀ {shown current now events core es next}, shown ≤ now.toNat → now.toNat < current →
    core.Tidy → P shown current events core → Input now core es next →
    P shown current (events ++ es) next
  output : ∀ {link now acked events core es next}, (∀ id ∈ acked, posted id) → core.Tidy →
    P (now.toNat + 1) (now.toNat + 1) events core → Output link now acked core es next →
    P (now.toNat + 1) (now.toNat + 1) (events ++ es) next
  boxed : ∀ {shown current link events core es next}, core.Tidy → P shown current events core →
    Boxed link core es next → P shown current (events ++ es) next

variable {posted : MessageId → Prop} {P : Nat → Nat → List Event → Core → Prop} {pace : Pace}
  {session : Session} {events : List Event}

theorem Keeps.run (keeps : Keeps posted P) (link : Link) {call : Call} (allowed : pace.Allows call)
    (queued : ∀ ack ∈ session.intake.queue, posted ack.id) (tidy : session.core.Tidy)
    (hp : P pace.floor pace.ceiling events session.core) :
    P (pace.after call).floor (pace.after call).ceiling (events ++ (session.run link call).events)
      (session.run link call).value.2.core := by
  have boxed : ∀ events core es next, core.Tidy → P pace.floor pace.ceiling events core →
      Boxed link core es next → P pace.floor pace.ceiling (events ++ es) next :=
    fun _ _ _ _ tidy hp step => keeps.boxed tidy hp step
  cases call with
  | stateChanged block =>
    have hp := keeps.grow (Nat.le_refl _) allowed.ceiling_le hp
    exact (run_keeps (.stateChanged block) events (fun _ _ _ _ tidy hp step =>
      keeps.input allowed.1 (Nat.lt_succ_self _) tidy hp step) tidy hp).2
  | endFrame time =>
    have hp := keeps.grow (Nat.le_succ_of_le allowed.1) allowed.ceiling_le hp
    have posted : ∀ id ∈ session.intake.queue.map Ack.id, posted id := by
      intro id hid
      obtain ⟨ack, ha, rfl⟩ := List.mem_map.1 hid
      exact queued ack ha
    exact (run_keeps (.endFrame time) events
      (fun _ _ _ _ tidy hp step => keeps.output posted tidy hp step) tidy hp).2
  | setSelf | setSizeLimit | post | beginFrame | endBlock =>
    refine (run_keeps _ events ?_ tidy hp).2
    exact fun events core es next tidy hp step => boxed events core es next tidy hp step

theorem Keeps.play (keeps : Keeps (fun _ => True) P) {calls : List (Link × Call)}
    (paced : Paced pace calls) (tidy : session.core.Tidy)
    (hp : P pace.floor pace.ceiling events session.core) :
    ∃ shown current, P shown current (events ++ (Session.play calls session).events)
      (Session.play calls session).value.core := by
  induction calls generalizing pace session events with
  | nil => exact ⟨_, _, by simpa [Session.play] using hp⟩
  | cons first rest ih =>
    obtain ⟨link, call⟩ := first
    obtain ⟨allowed, paced⟩ := paced
    have onward := ih paced (run_tidy call tidy)
      (keeps.run link allowed (fun _ _ => trivial) tidy hp)
    simpa only [Session.play, Noted.value_bind, Noted.events_bind, List.append_assoc] using onward

end Pace

end AreaReplication
