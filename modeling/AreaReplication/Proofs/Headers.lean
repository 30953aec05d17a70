import AreaReplication.Proofs.Delivery
import AreaReplication.Proofs.TickEnd

/-!
# States stand under the header of their tick

A message gathers the frames of several ticks, and a frame that is split goes on under a repeated
header. Whatever becomes of the messages, every state that one of them holds was queued at the end
of the tick that its frame names, while the window was centered where the frame says.
-/
namespace AreaReplication

def Outbox.header? (box : Outbox) : Option (Time × Option Zone) :=
  box.frames.head?.map fun frame => (frame.time, frame.center)

theorem Outbox.pushFrame_opens {box : Outbox} (time : Time) (center : Option Zone) :
    (box.pushFrame time center).frames = { time, center } :: box.frames := by
  unfold pushFrame
  split_ifs <;> rfl

/-- What is known of every state that a message holds, be it sent or being filled. -/
structure Headed (known : MessageId → Placed → Prop) (events : List Event) (box : Outbox) :
    Prop where
  sent : ∀ message ∈ messagesSent events, ∀ placed ∈ message.placed, known message.id placed
  filled : ∀ placed ∈ box.placed, known box.nextId placed

namespace Headed

variable {known : MessageId → Placed → Prop} {events es : List Event} {link : Link}
  {box next : Outbox} {outcome : Except SendError Unit} {time : Time} {center : Option Zone}

theorem mono {more : MessageId → Placed → Prop}
    (imp : ∀ id placed, known id placed → more id placed) (h : Headed known events box) :
    Headed more events box :=
  ⟨fun message hm placed hp => imp _ _ (h.sent message hm placed hp),
    fun placed hp => imp _ _ (h.filled placed hp)⟩

theorem silent (h : Headed known events box) (silent : Silent es)
    (frames : next.frames = box.frames) (number : next.nextId = box.nextId) :
    Headed known (events ++ es) next := by
  refine ⟨?_, ?_⟩
  · rw [messagesSent_append, silent.messagesSent, List.append_nil]
    exact h.sent
  · intro placed hp
    rw [number]
    rw [Outbox.placed, frames] at hp
    exact h.filled placed hp

/-- A message that is sent keeps its states, and what is dropped is gone. -/
theorem flushed (h : Headed known events box) (flushed : Outbox.Flushed link box outcome es next) :
    Headed known (events ++ es) next := by
  have empty : ∀ placed ∈ next.placed, known next.nextId placed := by
    intro placed hp
    rw [Outbox.placed_of_empty flushed.frames] at hp
    cases hp
  cases flushed with
  | idle => rwa [List.append_nil]
  | unwritten | refused =>
    rw [List.append_nil]
    exact ⟨h.sent, empty⟩
  | sent =>
    refine ⟨fun message hm placed hp => ?_, empty⟩
    rw [messagesSent_append, Outbox.messagesSent_flushed] at hm
    rcases List.mem_append.1 hm with hm | hm
    · exact h.sent message hm placed hp
    · rw [List.mem_singleton.1 hm, Outbox.pendingMessage_placed] at hp
      rw [List.mem_singleton.1 hm]
      exact h.filled placed hp

theorem push (h : Headed known events box) : Headed known events (box.pushFrame time center) := by
  refine ⟨h.sent, fun placed hp => ?_⟩
  rw [Outbox.pushFrame_placed] at hp
  rw [Outbox.pushFrame_nextId]
  exact h.filled placed hp

theorem started (h : Headed known events box)
    (started : Outbox.Started link box time center outcome es next) :
    Headed known (events ++ es) next ∧ (outcome = .ok () → next.header? = some (time, center)) := by
  cases started with
  | pushed =>
    rw [List.append_nil]
    exact ⟨h.push, fun _ => rfl⟩
  | failed flushed => exact ⟨h.flushed flushed, nofun⟩
  | continued _ flushed => exact ⟨(h.flushed flushed).push, fun _ => rfl⟩

theorem append (h : Headed known events box) {frame : OpenFrame} {rest : List OpenFrame}
    (opened : box.frames = frame :: rest) {state : Delta}
    (new : known box.nextId ⟨some (frame.time, frame.center), state⟩) :
    Headed known events (box.appendState state) := by
  refine ⟨h.sent, fun placed hp => ?_⟩
  rw [Outbox.appendState_placed opened] at hp
  rcases List.mem_append.1 hp with hp | hp
  · exact h.filled placed hp
  · rw [List.mem_singleton.1 hp]
    exact new

/-- A state that is added joins the frame that is open, even if that goes on in the next message. -/
theorem added (h : Headed known events box) {state : Delta}
    (added : Outbox.Added link box state outcome es next)
    (new : outcome = .ok () → known next.nextId ⟨box.header?, state⟩) :
    Headed known (events ++ es) next ∧ (outcome = .ok () → next.header? = box.header?) := by
  cases added with
  | unopened | oversized =>
    rw [List.append_nil]
    exact ⟨h, fun ok => by cases ok⟩
  | appended opened =>
    obtain ⟨frame, rest, opened⟩ := List.exists_cons_of_ne_nil opened
    have header : box.header? = some (frame.time, frame.center) := by simp [Outbox.header?, opened]
    rw [header] at new ⊢
    rw [List.append_nil]
    refine ⟨h.append opened (new rfl), fun _ => ?_⟩
    simp [Outbox.header?, Outbox.appendState, opened]
  | @failed split _ _ _ flushed =>
    have remark : Silent [.frameSplit split] := .of_remark rfl
    have noted := h.silent remark rfl rfl
    rw [← List.singleton_append, ← List.append_assoc]
    exact ⟨noted.flushed flushed, fun ok => by cases ok⟩
  | @continued frame _ _ _ opened _ flushed =>
    have header : box.header? = some (frame.time, frame.center) := by simp [Outbox.header?, opened]
    have remark : Silent [.frameSplit frame.time] := .of_remark rfl
    have noted := h.silent remark rfl rfl
    rw [header] at new ⊢
    rw [← List.singleton_append, ← List.append_assoc]
    refine ⟨(noted.flushed flushed).push.append (Outbox.pushFrame_opens _ _) (new rfl), fun _ => ?_⟩
    simp [Outbox.header?, Outbox.appendState, Outbox.pushFrame_opens]

end Headed

namespace Projection

variable {known : MessageId → Placed → Prop} {events : List Event} {link : Link} {now : Time}
  {center : Option Zone}

theorem visit_headed {walked : Walk} {replica : Replica} (h : Headed known events walked.box)
    (opened : walked.box.header? = some (now, center))
    (queued : ∀ id entity shown state,
      .queued id entity shown state ∈ (visit link now walked replica).events →
      known id ⟨some (now, center), state⟩) :
    Headed known (events ++ (visit link now walked replica).events)
        (visit link now walked replica).value.2.box ∧
      ((visit link now walked replica).value.1 = .ok () →
        (visit link now walked replica).value.2.box.header? = some (now, center)) := by
  have readied : Silent (ready now replica).events := by
    simp only [ready, Noted.events_bind, noteIf, Noted.events_pure, List.append_nil]
    split_ifs
    · exact .of_remark rfl
    · exact silent_nil
  have emitted : Silent ((replica.shownAt now).emit now).events := by
    simp only [Replica.emit, Noted.events_bind, Noted.events_pure, List.append_nil]
    unfold Replica.recordCurrent
    split_ifs
    · exact silent_nil
    · split
      · exact silent_nil
      · exact .of_remark rfl
  have prepared := (h.silent readied rfl rfl).silent emitted rfl rfl
  have added := walked.box.addState_added link (replica.shownAt now).delta
  have shown : (ready now replica).value.2 = replica.shownAt now := rfl
  simp only [visit, Noted.events_bind, Noted.value_bind, Replica.emit_state, shown] at queued ⊢
  generalize walked.box.addState link (replica.shownAt now).delta = result at added queued ⊢
  obtain ⟨⟨outcome, box⟩, noted⟩ := result
  cases outcome with
  | error error =>
    simp only [Noted.events_pure, Noted.value_pure, List.append_nil, ← List.append_assoc]
    exact ⟨(prepared.added added fun ok => by cases ok).1, fun ok => by cases ok⟩
  | ok =>
    -- The message may have gone out meanwhile: the state is in the one that is filled now.
    simp only [note, Noted.events_bind, Noted.value_bind, Noted.events_pure, Noted.value_pure,
      List.append_nil, ← List.append_assoc] at queued ⊢
    have new := queued box.nextId _ _ (replica.shownAt now).delta
      (List.mem_append_right _ (List.mem_singleton_self _))
    rw [← opened] at new
    obtain ⟨held, kept⟩ := prepared.added added fun _ => new
    refine ⟨⟨?_, held.filled⟩, fun _ => (kept rfl).trans opened⟩
    have quiet : messagesSent [Event.queued box.nextId
      ((replica.shownAt now).emit now).value.2.entity
      ((replica.shownAt now).emit now).value.2.current (replica.shownAt now).delta] = [] := rfl
    rw [messagesSent_append, quiet, List.append_nil]
    exact held.sent

theorem walk_headed {replicas : List Replica} {walked : Walk} (h : Headed known events walked.box)
    (opened : walked.box.header? = some (now, center))
    (queued : ∀ id entity shown state,
      .queued id entity shown state ∈ (walk link now replicas walked).events →
      known id ⟨some (now, center), state⟩) :
    Headed known (events ++ (walk link now replicas walked).events)
      (walk link now replicas walked).value.2.box := by
  induction replicas generalizing events walked with
  | nil =>
    simp only [walk, Noted.events_pure, List.append_nil]
    exact h
  | cons replica rest ih =>
    simp only [walk, Noted.events_bind, Noted.value_bind] at queued ⊢
    obtain ⟨visited, kept⟩ := visit_headed h opened fun id entity shown state hq =>
      queued id entity shown state (List.mem_append_left _ hq)
    cases outcome : (visit link now walked replica).value.1 with
    | error error =>
      simp only [Noted.events_pure, Noted.value_pure, List.append_nil]
      exact visited
    | ok =>
      simp only [outcome] at queued
      rw [← List.append_assoc]
      exact ih visited (kept outcome) fun id entity shown state hq =>
        queued id entity shown state (List.mem_append_right _ hq)

end Projection

namespace Session

open AreaReplication.Core

/-- The operation was the end of the tick that the frame of the state names, the window was centered
where the frame says, and the state was queued for the message. -/
structure Turn.Queues (turn : Turn) (id : MessageId) (placed : Placed) : Prop where
  header : ∃ time, turn.call = .endFrame time ∧
    placed.frame = some (time, turn.before.window.center)
  queued : ∃ entity shown, .queued id entity shown placed.state ∈ turn.events

/-- Some operation of the run queued the state for the message. -/
def Originates (past : List Turn) (id : MessageId) (placed : Placed) : Prop :=
  ∃ turn ∈ past, turn.Queues id placed

variable {past : List Turn} {turn : Turn}

theorem Originates.append {id : MessageId} {placed : Placed} (h : Originates past id placed) :
    Originates (past ++ [turn]) id placed := by
  obtain ⟨source, hs, queues⟩ := h
  exact ⟨source, List.mem_append_left _ hs, queues⟩

variable (link : Link) (session : Session) (time : Time)

theorem acked_box : session.acked.outbox.frames = session.outbox.frames ∧
    session.acked.outbox.nextId = session.outbox.nextId := by
  have worked : ∀ (acks : List Ack) (ping : Ping) (box : Outbox) (table : ReplicaTable),
      (Intake.settleAll acks ping box table).value.2.2.1.frames = box.frames ∧
      (Intake.settleAll acks ping box table).value.2.2.1.nextId = box.nextId := by
    intro acks
    induction acks with
    | nil => exact fun _ _ _ => ⟨rfl, rfl⟩
    | cons ack rest ih =>
      intro ping box table
      have first : (Intake.settle box table ack.id).value.2.1.frames = box.frames ∧
          (Intake.settle box table ack.id).value.2.1.nextId = box.nextId := by
        unfold Intake.settle
        cases taken : box.takeRecord ack.id with
        | none => exact ⟨rfl, rfl⟩
        | some found =>
          obtain ⟨record, left⟩ := found
          obtain ⟨-, rfl⟩ := Outbox.takeRecord_some taken
          simp only [Noted.value_bind]
          split_ifs <;> exact ⟨rfl, rfl⟩
      simp only [Intake.settleAll, Noted.value_bind, Noted.value_pure]
      obtain ⟨frames, number⟩ := ih (ping.record ack.roundTrip).value
        (Intake.settle box table ack.id).value.2.1 (Intake.settle box table ack.id).value.2.2
      exact ⟨frames.trans first.1, number.trans first.2⟩
  exact worked session.intake.queue session.intake.ping session.outbox session.table

theorem endFrame_box : (session.endFrame link time).value.2.outbox =
    (session.sweep link time).value.2.box := by
  have swept := session.endFrame_swept link time
  generalize (session.sweep link time).value = sweep at swept ⊢
  generalize (session.endFrame link time).value = ended at swept ⊢
  cases swept with
  | broken core => exact congrArg Core.box core
  | finished _ core => exact congrArg Core.box core

variable {link session time}

theorem sweep_headed {known : MessageId → Placed → Prop} {events : List Event}
    (h : Headed known events session.outbox)
    (queued : ∀ id entity shown state,
      .queued id entity shown state ∈ (session.sweep link time).events →
      known id ⟨some (time, session.window.center), state⟩) :
    Headed known (events ++ (session.sweep link time).events)
      (session.sweep link time).value.2.box := by
  obtain ⟨frames, number⟩ := session.acked_box
  have acked := h.silent silent_nil frames number
  rw [List.append_nil] at acked
  have started := session.acked.outbox.startFrame_started link time session.window.center
  simp only [sweep, Noted.events_bind, Noted.value_bind] at queued ⊢
  generalize session.acked.outbox.startFrame link time session.window.center = start
    at started queued ⊢
  obtain ⟨⟨outcome, box⟩, noted⟩ := start
  obtain ⟨opened, header⟩ := acked.started started
  cases outcome with
  | error error =>
    simp only [Noted.events_pure, Noted.value_pure, List.append_nil]
    exact opened
  | ok =>
    rw [← List.append_assoc]
    exact Projection.walk_headed opened (header rfl) fun id entity shown state hq =>
      queued id entity shown state (List.mem_append_right _ hq)

theorem endFrame_headed {known : MessageId → Placed → Prop} {events : List Event}
    (h : Headed known events session.outbox)
    (queued : ∀ id entity shown state,
      .queued id entity shown state ∈ (session.endFrame link time).events →
      known id ⟨some (time, session.window.center), state⟩) :
    Headed known (events ++ (session.endFrame link time).events)
      (session.endFrame link time).value.2.outbox := by
  obtain ⟨opening, closing, before, after, noted⟩ := endFrame_events link session time
  rw [endFrame_box, noted, ← List.append_assoc, ← List.append_assoc]
  refine (sweep_headed (h.silent before rfl rfl) fun id entity shown state hq => ?_).silent after
    rfl rfl
  refine queued id entity shown state ?_
  rw [noted]
  exact List.mem_append_left _ (List.mem_append_right _ hq)

/-- A block touches no message. -/
theorem stateChanged_quiet (tidy : session.core.Tidy) (block : StateBlock) :
    Silent (session.stateChanged block).events ∧
      (session.stateChanged block).value.outbox = session.outbox := by
  have kept := (session.stateChanged_path block).keeps (P := fun events core =>
    core.Tidy ∧ Silent events ∧ core.box = session.outbox) ?_ [] ⟨tidy, silent_nil, rfl⟩
  · exact kept.2
  · rintro events core es next ⟨tidy, silent, same⟩ step
    exact ⟨step.tidy tidy, silent.append (step.silent tidy), step.box.trans same⟩

/-- Every operation keeps the states of the messages under the headers of their ticks. -/
theorem headed_turn (tidy : turn.before.core.Tidy)
    (h : Headed (Originates past) (eventsOf past) turn.before.outbox) :
    Headed (Originates (past ++ [turn])) (eventsOf (past ++ [turn])) turn.after.outbox := by
  have events : eventsOf (past ++ [turn]) = eventsOf past ++ turn.events := by
    simp [eventsOf]
  have before := h.mono fun id placed => @Originates.append past turn id placed
  rw [events]
  obtain ⟨link, session, call⟩ := turn
  cases call with
  | endFrame time =>
    refine endFrame_headed before fun id entity shown state hq => ?_
    exact ⟨_, List.mem_append_right _ (List.mem_singleton_self _), ⟨time, rfl, rfl⟩, entity, shown,
      hq⟩
  | endBlock =>
    have flushed := session.outbox.flush_flushed link
    have noted : Turn.events ⟨link, session, .endBlock⟩ = (session.outbox.flush link).events := by
      simp only [Turn.events, run, endBlock, Noted.events_bind, Noted.events_pure, List.append_nil]
    rw [noted]
    exact before.flushed flushed
  | stateChanged block =>
    obtain ⟨silent, same⟩ := stateChanged_quiet tidy block
    have noted : Turn.events ⟨link, session, .stateChanged block⟩ =
        (session.stateChanged block).events := by
      simp only [Turn.events, run, Noted.events_bind, Noted.events_pure, List.append_nil]
    rw [noted]
    exact before.silent silent (congrArg Outbox.frames same) (congrArg Outbox.nextId same)
  | beginFrame =>
    obtain ⟨_, _, _, begun⟩ := session.beginFrame_frame
    simp only [Turn.after, run, Noted.value_pure, begun]
    exact before.silent silent_nil rfl rfl
  | _ => exact before.silent silent_nil rfl rfl

theorem turns_headed (grid : Grid) (settings : Settings) (calls : List (Link × Call)) :
    Headed (Originates (turns calls (new grid settings)))
      (eventsOf (turns calls (new grid settings)))
      (play calls (new grid settings)).value.outbox := by
  have start : Headed (Originates []) (eventsOf []) (new grid settings).outbox := by
    refine ⟨fun message hm => ?_, fun placed hp => ?_⟩
    · cases hm
    · cases hp
  exact (turns_keep (P := fun past session =>
    Headed (Originates past) (eventsOf past) session.outbox)
    (fun _ _ tidy h => headed_turn tidy h) calls (new_tidy grid settings) start).2

end Session

end AreaReplication
