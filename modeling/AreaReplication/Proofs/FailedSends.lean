import AreaReplication.Proofs.Acks
import AreaReplication.Proofs.Delivery

/-!
# What a failed send leaves behind

A message that cannot be written, or that the transport refuses, is dropped as a whole, and its
number goes to the next one. Nothing of it is left in the outbox, so the message that gets the
number carries nothing accepted before the failure. This also holds once the numbers have run out.
-/
namespace AreaReplication

theorem Message.placed_states (message : Message) :
    message.placed.map Placed.state = message.states := by
  simp [placed, states, Frame.placed, List.map_flatMap, Function.comp_def]

namespace Outbox

def Turn.accepts? (turn : Turn) : Option Delta :=
  match turn.call, turn.outcome with
  | .addState state, .ok () => some state
  | _, _ => none

def accepted (past : List Turn) : List Delta := past.filterMap Turn.accepts?

theorem Account.kept_sublist (account : Account) (turn : Turn) :
    ((account.after turn.before turn.call turn.outcome).kept.map Placed.state).Sublist
      (account.kept.map Placed.state ++ turn.accepts?.toList) := by
  have same := List.sublist_append_left (account.kept.map Placed.state) turn.accepts?.toList
  cases outcome : turn.outcome with
  | ok =>
    cases call : turn.call with
    | addState state => simp [Account.after, Turn.accepts?, call, outcome]
    | _ => exact same
  | error error =>
    simp only [Account.after]
    split_ifs
    · exact ((List.take_sublist _ _).map _).trans same
    · exact same

/-- Whatever is accounted for was accepted. -/
theorem account_kept_sublist (past : List Turn) :
    ((account past).kept.map Placed.state).Sublist (accepted past) := by
  induction past using List.reverseRecOn with
  | nil => exact .slnil
  | append_singleton past turn ih =>
    have onward := (account past).kept_sublist turn
    have turned : accepted (past ++ [turn]) = accepted past ++ turn.accepts?.toList := by
      cases taken : turn.accepts? <;> simp [accepted, taken]
    rw [account_concat, turned]
    exact onward.trans (ih.append_right _)

section Failed

variable {link : Link} {box next : Outbox} {events : List Event} {error : SendError}

theorem Flushed.failed (h : Flushed link box (.error error) events next) :
    error.drops ∧ next = box.emptied := by
  cases h <;> exact ⟨rfl, rfl⟩

/-- A failure drops the message being filled or leaves all as it is. -/
theorem perform_failed {call : Call} (failed : (box.perform link call).value.1 = .error error) :
    error.drops ∧ (box.perform link call).value.2 = box.emptied ∨
      ¬ error.drops ∧ (box.perform link call).value.2 = box := by
  cases call with
  | startFrame time center =>
    have started := box.startFrame_started link time center
    simp only [perform] at failed ⊢
    rw [failed] at started
    cases started with
    | failed flushed => exact .inl flushed.failed
  | addState state =>
    have added := box.addState_added link state
    simp only [perform] at failed ⊢
    rw [failed] at added
    generalize (box.addState link state).value.2 = next at added
    generalize (box.addState link state).events = events at added
    cases added with
    | unopened | oversized => exact .inr ⟨Bool.false_ne_true, rfl⟩
    | failed flushed => exact .inl flushed.failed
  | flush =>
    have flushed := box.flush_flushed link
    simp only [perform] at failed ⊢
    rw [failed] at flushed
    exact .inl flushed.failed
  | _ => cases failed

end Failed

/-- The records are those of the newest messages, up to the capacity, and the pairs that go into the
next one are those of the states in the message being filled. -/
structure Recording (box : Outbox) : Prop where
  numbered : ∀ id ∈ box.outstanding, id ≤ box.nextId
  records : box.outstanding.size ≤ box.capacity
  roomy : 0 < box.capacity
  carried : box.carried.reverse = box.buffered.map Delta.key

namespace Recording

variable {link : Link} {box next : Outbox} {events : List Event}

theorem of_new (sizeLimit capacity : Nat) : Recording (new sizeLimit capacity) where
  numbered := by simp [new]
  records := Nat.zero_le _
  roomy := Nat.le_max_right capacity 1
  carried := rfl

theorem send (h : Recording box) (link : Link) (bytes : Nat) :
    Recording (box.recordSent (box.pendingMessage link) bytes).forgetSurplus where
  numbered id held := by
    rcases mem_recordSent held with held | rfl
    · exact UInt64.le_trans (h.numbered id held) (nextId_le_next _)
    · exact nextId_le_next _
  records := by
    have inserted : (box.recordSent (box.pendingMessage link) bytes).outstanding.size ≤
        box.outstanding.size + 1 := Std.ExtTreeMap.size_insert_le
    exact Settling.forgetSurplus_size rfl
      (Nat.le_trans inserted (Nat.add_le_add_right h.records 1))
  roomy := h.roomy
  carried := rfl

theorem step (h : Recording box) (step : Step link box events next) : Recording next := by
  cases step with
  | remark => exact h
  | resize => exact ⟨h.numbered, h.records, h.roomy, h.carried⟩
  | send => exact h.send link _
  | drop => exact ⟨h.numbered, h.records, h.roomy, rfl⟩
  | push time center =>
    constructor
    · rw [pushFrame_outstanding, pushFrame_nextId]
      exact h.numbered
    · rw [pushFrame_outstanding, pushFrame_capacity]
      exact h.records
    · rw [pushFrame_capacity]
      exact h.roomy
    · rw [pushFrame_carried, pushFrame_buffered]
      exact h.carried

theorem path (h : Recording box) (path : Path (Step link) box events next) : Recording next :=
  path.keeps (P := fun _ box => Recording box) (fun _ _ _ _ h step => h.step step) [] h

theorem append (h : Recording box) (opened : box.frames ≠ []) (state : Delta) :
    Recording (box.appendState state) := by
  refine ⟨h.numbered, h.records, h.roomy, ?_⟩
  rw [appendState_buffered opened, List.map_append, ← h.carried]
  simp [appendState, Delta.key]

theorem perform (h : Recording box) (link : Link) (call : Call) :
    Recording (box.perform link call).value.2 := by
  cases call with
  | startFrame time center => exact h.path (box.startFrame_path link time center)
  | addState state =>
    obtain ⟨before, path, ⟨result, opened⟩ | ⟨error, result⟩⟩ := box.addState_path link state
    · rw [Outbox.perform, result]
      exact (h.path path).append opened state
    · rw [Outbox.perform, result]
      exact h.path path
  | flush => exact h.path (box.flush_path link)
  | takeRecord id =>
    cases taken : box.takeRecord id with
    | none => simpa [Outbox.perform, taken] using h
    | some pair =>
      obtain ⟨record, rest⟩ := pair
      obtain ⟨-, rfl⟩ := takeRecord_some taken
      simp only [Outbox.perform, taken, Option.elim_some, Noted.value_pure]
      refine ⟨fun other held => h.numbered other (Std.ExtTreeMap.mem_of_mem_erase held), ?_,
        h.roomy, h.carried⟩
      exact Nat.le_trans Std.ExtTreeMap.size_erase_le h.records
  | echo id => exact ⟨h.numbered, h.records, h.roomy, h.carried⟩
  | setSizeLimit bytes => exact ⟨h.numbered, h.records, h.roomy, h.carried⟩

/-- A message that has been sent is on record under its number. -/
theorem recorded (h : Recording box) (link : Link) (bytes : Nat) :
    (box.recordSent (box.pendingMessage link) bytes).forgetSurplus.outstanding[box.nextId]? =
      some (box.pendingMessage link).record := by
  have inserted := recordSent_outstanding h.carried link bytes
  have kept : (box.recordSent (box.pendingMessage link) bytes).surplus? ≠ some box.nextId := by
    by_cases again : box.nextId ∈ box.outstanding
    · -- The numbers have run out, and the record takes the place of another one.
      have room : ¬ (box.recordSent (box.pendingMessage link) bytes).capacity <
          (box.recordSent (box.pendingMessage link) bytes).outstanding.size := by
        rw [inserted, Std.ExtTreeMap.size_insert, if_pos (Std.ExtTreeMap.contains_iff_mem.2 again)]
        exact Nat.not_lt.2 h.records
      rw [surplus?, if_neg room]
      exact (Option.some_ne_none _).symm
    · refine surplus?_ne_newest h.roomy inserted fun other held => ?_
      exact UInt64.lt_of_le_of_ne (h.numbered other held) fun same => again (same ▸ held)
  rw [forgetSurplus_keeps kept, inserted]
  exact Std.ExtTreeMap.getElem?_insert_self

end Recording

/-- What an operation sends is the message that was being filled, which is then on record. -/
structure Issues (link : Link) (box : Outbox) (events : List Event) (next : Outbox) : Prop where
  number : AreaReplication.messagesSent events = [] → next.nextId = box.nextId
  sent : ∀ message ∈ AreaReplication.messagesSent events,
    message = box.pendingMessage link ∧ next.outstanding[message.id]? = some message.record

section Issues

variable {link : Link} {box next : Outbox} {outcome : Except SendError Unit} {events : List Event}

namespace Issues

theorem idle (number : next.nextId = box.nextId) : Issues link box [] next :=
  ⟨fun _ => number, nofun⟩

theorem push (h : Issues link box events next) (time : Time) (center : Option Zone) :
    Issues link box events (next.pushFrame time center) := by
  refine ⟨fun quiet => (pushFrame_nextId _ _ _).trans (h.number quiet), ?_⟩
  rw [pushFrame_outstanding]
  exact h.sent

theorem append (h : Issues link box events next) (state : Delta) :
    Issues link box events (next.appendState state) := ⟨h.number, h.sent⟩

theorem remark (h : Issues link box events next) (time : Time) :
    Issues link box (.frameSplit time :: events) next := ⟨h.number, h.sent⟩

end Issues

variable (recording : Recording box)
include recording

theorem Flushed.issues (h : Flushed link box outcome events next) :
    Issues link box events next := by
  cases h with
  | idle | unwritten | refused => exact .idle rfl
  | @sent packet =>
    constructor
    · rw [messagesSent_flushed]
      exact nofun
    · rw [messagesSent_flushed]
      intro message hm
      rw [List.mem_singleton.1 hm]
      exact ⟨rfl, recording.recorded link packet.length⟩

theorem Started.issues {time : Time} {center : Option Zone}
    (h : Started link box time center outcome events next) : Issues link box events next := by
  cases h with
  | pushed => exact .idle (pushFrame_nextId _ _ _)
  | failed flushed => exact flushed.issues recording
  | continued _ flushed => exact (flushed.issues recording).push time center

theorem Added.issues {state : Delta} (h : Added link box state outcome events next) :
    Issues link box events next := by
  cases h with
  | unopened | oversized | appended => exact .idle rfl
  | @failed time _ _ _ flushed => exact (flushed.issues recording).remark time
  | @continued frame _ _ _ _ _ flushed =>
    exact (((flushed.issues recording).remark frame.time).push frame.time frame.center).append state

theorem perform_issues (link : Link) (call : Call) :
    Issues link box (box.perform link call).events (box.perform link call).value.2 := by
  cases call with
  | startFrame time center => exact (box.startFrame_started link time center).issues recording
  | addState state => exact (box.addState_added link state).issues recording
  | flush => exact (box.flush_flushed link).issues recording
  | takeRecord id =>
    obtain ⟨outstanding, toEcho, rest, -⟩ := box.takeRecord_eq id
    rw [perform, rest]
    exact .idle rfl
  | echo id => exact .idle rfl
  | setSizeLimit bytes => exact .idle rfl

end Issues

/-- Nothing has been sent in `past`, which began with no message under way. -/
structure Resumed (number : MessageId) (past : List Turn) (box : Outbox) : Prop where
  recording : Recording box
  number : box.nextId = number
  balanced : Balanced [] (account past) box

namespace Resumed

variable {number : MessageId} {past : List Turn}

theorem of_emptied {box : Outbox} (recording : Recording box) :
    Resumed box.nextId [] box.emptied where
  recording := ⟨recording.numbered, recording.records, recording.roomy, rfl⟩
  number := rfl
  balanced := ⟨rfl, nofun⟩

theorem step {turn : Turn} (h : Resumed number past turn.before)
    (quiet : AreaReplication.messagesSent turn.events = []) :
    Resumed number (past ++ [turn]) turn.after := by
  have issues := perform_issues h.recording turn.link turn.call
  have balanced := h.balanced.perform turn.link turn.call
  refine ⟨h.recording.perform turn.link turn.call, (issues.number quiet).trans h.number, ?_⟩
  rw [account_concat]
  have none : AreaReplication.messagesSent (turn.before.perform turn.link turn.call).events = [] :=
    quiet
  rw [none] at balanced
  exact balanced

theorem play {box : Outbox} (h : Resumed number [] box) (calls : List (Link × Call))
    (quiet : AreaReplication.messagesSent (play calls box).events = []) :
    Resumed number (turns calls box) (play calls box).value := by
  refine play_keeps (P := fun past box =>
    AreaReplication.messagesSent (eventsOf past) = [] → Resumed number past box) ?_ calls
    (fun _ => h) (play_events calls box ▸ quiet)
  intro past turn ih quiet
  rw [eventsOf, List.flatMap_append, List.flatMap_singleton, messagesSent_append,
    List.append_eq_nil_iff] at quiet
  exact (ih quiet.1).step quiet.2

/-- The next message to be sent carries what was accepted and not lost since. -/
theorem issued {box : Outbox} (h : Resumed number past box) {link : Link} {call : Call}
    {message : Message}
    (sent : message ∈ AreaReplication.messagesSent (box.perform link call).events) :
    message.id = number ∧
      (box.perform link call).value.2.outstanding[message.id]? = some message.record ∧
      message.placed = (account past).kept := by
  obtain ⟨rfl, recorded⟩ := (perform_issues h.recording link call).sent message sent
  exact ⟨h.number, recorded, (pendingMessage_placed link box).trans h.balanced.kept⟩

end Resumed

theorem play_recording (sizeLimit capacity : Nat) (calls : List (Link × Call)) :
    Recording (play calls (new sizeLimit capacity)).value :=
  play_invariant (fun _ link call h => h.perform link call) calls
    (Recording.of_new sizeLimit capacity)

/-- In every run, an operation that fails leaves the outbox as it is if it refuses the state, and
with nothing in the message being filled if it drops that message. Whatever is done then, the next
message to be sent gets the number of the one that was dropped; it carries, and has on record, what
has been accepted since, but for states that are lost again. -/
theorem failed_sends_start_over (sizeLimit capacity : Nat) (calls : List (Link × Call))
    (link : Link) (call : Call) {error : SendError}
    (failed : ((play calls (new sizeLimit capacity)).value.perform link call).value.1 =
      .error error) :
    let box := (play calls (new sizeLimit capacity)).value
    let after := (box.perform link call).value.2
    (¬ error.drops → after = box) ∧
    (error.drops →
      after = { box with frames := [], echoed := [], carried := [], pendingBits := 0 } ∧
      ∀ (more : List (Link × Call)) (later : Link) (next : Call),
        let onward := play more after
        let since := turns more after
        let result := onward.value.perform later next
        AreaReplication.messagesSent onward.events = [] →
          ∀ message ∈ AreaReplication.messagesSent result.events,
            message.id = box.nextId ∧
            result.value.2.outstanding[message.id]? = some message.record ∧
            message.placed = (account since).kept ∧
            message.record.states.Sublist ((accepted since).map Delta.key)) := by
  intro box after
  have recording : Recording box := play_recording sizeLimit capacity calls
  rcases perform_failed failed with ⟨drops, dropped⟩ | ⟨keeps, same⟩
  · refine ⟨fun keeps => absurd drops keeps, fun _ => ⟨dropped, ?_⟩⟩
    intro more later next onward since result quiet message sent
    have emptied : after = box.emptied := dropped
    have resumed : Resumed box.nextId since onward.value :=
      Resumed.play (emptied ▸ .of_emptied recording) more quiet
    obtain ⟨number, recorded, placed⟩ := resumed.issued sent
    refine ⟨number, recorded, placed, ?_⟩
    rw [Message.record, ← Message.placed_states, placed]
    exact (account_kept_sublist since).map Delta.key
  · exact ⟨fun _ => same, fun drops => absurd drops keeps⟩

def resumption : List (Link × Call) :=
  [.startFrame 2 none, .addState (arrival 3)].map fun call => (Line.link {}, call)

/-- The second message is refused with its state, and the third state goes out under its number. -/
theorem failed_sends_start_over_crowded :
    let box := (play crowded (new 53 4)).value
    let failure := (box.perform (Line.link { failure := some "down" }) .flush).value
    let result := (play resumption failure.2).value.perform (Line.link {}) .flush
    failure.1 = .error (.send 1 (.failed "down")) ∧ failure.2.carried = [] ∧
      ∃ message ∈ AreaReplication.messagesSent result.events,
        message.id = 1 ∧ message.placed = [⟨some (2, none), arrival 3⟩] ∧
          result.value.2.outstanding[message.id]? = some message.record := by
  intro box failure result
  have failed : failure.1 = .error (.send 1 (.failed "down")) := by decide +kernel
  have quiet : AreaReplication.messagesSent (play resumption failure.2).events = [] := by
    decide +kernel
  have kept : (account (turns resumption failure.2)).kept = [⟨some (2, none), arrival 3⟩] := by
    decide +kernel
  have some_sent : AreaReplication.messagesSent result.events ≠ [] := by decide +kernel
  obtain ⟨message, sent⟩ := List.exists_mem_of_ne_nil _ some_sent
  obtain ⟨after, onward⟩ := (failed_sends_start_over 53 4 crowded _ _ failed).2 rfl
  obtain ⟨number, recorded, placed, -⟩ := onward resumption _ _ quiet message sent
  have filling : box.nextId = 1 := by decide +kernel
  exact ⟨failed, congrArg Outbox.carried after, message, sent, number.trans filling,
    placed.trans kept, recorded⟩

end Outbox

end AreaReplication
