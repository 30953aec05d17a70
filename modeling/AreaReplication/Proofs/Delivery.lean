import AreaReplication.Proofs.OutboxRun
import Mathlib.Data.List.DropRight

/-!
# What is accepted is sent

Every state that an outbox accepts goes out once, in order and in the frame started last, unless the
message it is in fails to be sent. Every message that the transport takes can be read back and is
recorded with what it carries.
-/
namespace AreaReplication

structure Placed where
  frame : Option (Time × Option Zone)
  state : Delta
  deriving DecidableEq, Repr

def Frame.placed (frame : Frame) : List Placed :=
  frame.states.map fun state => ⟨some (frame.time, frame.center), state⟩

def Message.placed (message : Message) : List Placed := message.frames.flatMap Frame.placed

def SendError.drops : SendError → Bool
  | send .. | encode .. => true
  | stateTooLarge .. | frameNotStarted => false

namespace Outbox

def placed (box : Outbox) : List Placed :=
  box.frames.reverse.flatMap fun frame => frame.close.placed

structure Account where
  /-- The frame that was started last. -/
  start : Option (Time × Option Zone) := none
  /-- The states accepted and not lost, each in the frame that had been started last. -/
  kept : List Placed := []
  deriving DecidableEq, Repr

def Account.after (account : Account) (before : Outbox) (call : Call) :
    Except SendError Unit → Account
  | .ok () =>
    match call with
    | .startFrame time center => { account with start := some (time, center) }
    | .addState state => { account with kept := account.kept ++ [⟨account.start, state⟩] }
    | _ => account
  | .error error =>
    if error.drops then
      { account with kept := account.kept.rdrop before.buffered.length }
    else
      account

def account (past : List Turn) : Account :=
  past.foldl (fun account turn => account.after turn.before turn.call turn.outcome) {}

theorem account_concat (past : List Turn) (turn : Turn) : account (past ++ [turn]) =
    (account past).after turn.before turn.call turn.outcome := by
  simp [account]

theorem messagesSent_flushed (message : Message) (packet : Packet) (expired : List MessageId) :
    AreaReplication.messagesSent (.sent message packet :: expired.map .expired) = [message] := by
  simp [AreaReplication.messagesSent, List.filterMap_map]

theorem packetsSent_flushed (message : Message) (packet : Packet) (expired : List MessageId) :
    packetsSent (.sent message packet :: expired.map .expired) = [packet] := by
  simp [packetsSent, List.filterMap_map]

section Placed

variable (link : Link) (box : Outbox)

theorem pendingMessage_placed : (box.pendingMessage link).placed = box.placed := by
  simp [pendingMessage, Message.placed, placed, ← List.map_reverse, List.flatMap_map]

theorem length_placed : box.placed.length = box.buffered.length := by
  simp [placed, buffered, Frame.placed, OpenFrame.close, List.length_flatMap]

variable {box}

theorem placed_of_empty (empty : box.frames = []) : box.placed = [] := by
  simp [placed, empty]

theorem pushFrame_placed (time : Time) (center : Option Zone) :
    (box.pushFrame time center).placed = box.placed := by
  by_cases filled : box.frames = []
  · rw [pushFrame_of_empty filled, placed_of_empty filled]
    rfl
  · rw [pushFrame_of_filled filled]
    simp [placed, OpenFrame.close, Frame.placed]

theorem appendState_placed {frame : OpenFrame} {rest : List OpenFrame}
    (opened : box.frames = frame :: rest) (state : Delta) :
    (box.appendState state).placed =
      box.placed ++ [⟨some (frame.time, frame.center), state⟩] := by
  simp [placed, appendState, opened, OpenFrame.close, Frame.placed]

end Placed

/-- Of the states accepted, `sent` are sent, the others are buffered or lost. -/
structure Balanced (sent : List Placed) (account : Account) (box : Outbox) : Prop where
  kept : sent ++ box.placed = account.kept
  current : ∀ frame rest, box.frames = frame :: rest →
    account.start = some (frame.time, frame.center)

namespace Balanced

variable {link : Link} {box next : Outbox} {sent : List Placed} {account : Account}
  {outcome : Except SendError Unit} {events : List Event}

theorem push (h : Balanced sent account box) (time : Time) (center : Option Zone) :
    Balanced sent { account with start := some (time, center) } (box.pushFrame time center) := by
  refine ⟨by rw [pushFrame_placed]; exact h.kept, fun frame rest opened => ?_⟩
  have first : (box.pushFrame time center).frames.head? = some { time, center } := rfl
  rw [opened, List.head?_cons, Option.some.injEq] at first
  rw [first]

theorem append (h : Balanced sent account box) (opened : box.frames ≠ []) (state : Delta) :
    Balanced sent { account with kept := account.kept ++ [⟨account.start, state⟩] }
      (box.appendState state) := by
  obtain ⟨frame, rest, hf⟩ := List.exists_cons_of_ne_nil opened
  have start := h.current frame rest hf
  refine ⟨?_, fun other rest' opened => ?_⟩
  · rw [appendState_placed hf, ← List.append_assoc, h.kept, start]
  · simp only [appendState, hf, List.modifyHead_cons, List.cons.injEq] at opened
    rw [← opened.1]
    exact start

/-- What is buffered is sent, or is lost to a failure. -/
theorem flushed (h : Balanced sent account box) (flushed : Flushed link box outcome events next) :
    Balanced (sent ++ (AreaReplication.messagesSent events).flatMap Message.placed)
      (account.after box .flush outcome) next := by
  refine ⟨?_, fun frame rest opened => by rw [flushed.frames] at opened; cases opened⟩
  have dropped : account.kept.rdrop box.buffered.length = sent := by
    rw [← h.kept, ← length_placed, List.rdrop_eq_reverse_drop_reverse]
    simp
  have gone : next.placed = [] := placed_of_empty flushed.frames
  cases flushed with
  | idle => simpa [Account.after] using h.kept
  | unwritten | refused =>
    simp [Account.after, SendError.drops, dropped, gone]
  | sent =>
    rw [messagesSent_flushed, List.flatMap_singleton, pendingMessage_placed, gone, List.append_nil]
    exact h.kept

theorem started (h : Balanced sent account box) {time : Time} {center : Option Zone}
    (started : Started link box time center outcome events next) :
    Balanced (sent ++ (AreaReplication.messagesSent events).flatMap Message.placed)
      (account.after box (.startFrame time center) outcome) next := by
  cases started with
  | pushed => simpa [Account.after] using h.push time center
  | failed flushed => exact h.flushed flushed
  | continued _ flushed => exact (h.flushed flushed).push time center

theorem added (h : Balanced sent account box) {state : Delta}
    (added : Added link box state outcome events next) :
    Balanced (sent ++ (AreaReplication.messagesSent events).flatMap Message.placed)
      (account.after box (.addState state) outcome) next := by
  cases added with
  | unopened | oversized => simpa [Account.after, SendError.drops] using h
  | appended opened => simpa [Account.after] using h.append opened state
  | failed flushed => exact h.flushed flushed
  | @continued frame rest _ _ opened _ flushed =>
    -- The frame goes on under the header of the one that was started last.
    have start : account.start = some (frame.time, frame.center) := h.current frame rest opened
    have pushed := (h.flushed flushed).push frame.time frame.center
    have added := pushed.append (pushFrame_frames _ _ _) state
    simp only [Account.after, ← start] at added ⊢
    exact added

theorem perform (h : Balanced sent account box) (link : Link) (call : Call) :
    Balanced
      (sent ++ (AreaReplication.messagesSent (box.perform link call).events).flatMap Message.placed)
      (account.after box call (box.perform link call).value.1) (box.perform link call).value.2 := by
  have same : ∀ {next : Outbox}, next.frames = box.frames → Balanced (sent ++ []) account next := by
    intro next frames
    refine ⟨?_, by rw [frames]; exact h.current⟩
    rw [List.append_nil, placed, frames]
    exact h.kept
  cases call with
  | startFrame time center => exact h.started (box.startFrame_started link time center)
  | addState state => exact h.added (box.addState_added link state)
  | flush => exact h.flushed (box.flush_flushed link)
  | takeRecord id =>
    obtain ⟨outstanding, toEcho, rest, -⟩ := box.takeRecord_eq id
    have frames := congrArg Outbox.frames rest
    exact same frames
  | echo id => exact same rfl
  | setSizeLimit bytes => exact same rfl

end Balanced

/-- With room for one record, the newest one is never the one too many. -/
theorem surplus?_ne_newest {box old : Outbox} {id : MessageId} {record : SentRecord}
    (roomy : 0 < box.capacity) (inserted : box.outstanding = old.outstanding.insert id record)
    (older : ∀ other ∈ old.outstanding, other < id) : box.surplus? ≠ some id := by
  unfold surplus?
  split_ifs with full
  · have size : (old.outstanding.insert id record).size ≤ old.outstanding.size + 1 :=
      Std.ExtTreeMap.size_insert_le
    have held : old.outstanding ≠ ∅ := by
      rw [ne_eq, Std.ExtTreeMap.eq_empty_iff_size_eq_zero]
      rw [← inserted] at size
      omega
    -- The least of the older records stays the least one.
    cases hm : old.outstanding.minKey? with
    | none => exact absurd (Std.ExtTreeMap.minKey?_eq_none_iff.1 hm) held
    | some least =>
      have before := older least (Std.ExtTreeMap.minKey?_eq_some_iff_mem_and_forall.1 hm).1
      have first : ¬ (compare id least).isLE := fun le =>
        UInt64.not_lt.2 (Std.isLE_compare.1 le) before
      rw [inserted, Std.ExtTreeMap.minKey?_insert, hm, Option.elim_some, if_neg first]
      exact fun same => absurd (Option.some.inj same ▸ before) (UInt64.lt_irrefl _)
  · exact nofun

theorem forgetSurplus_keeps {box : Outbox} {id : MessageId} (kept : box.surplus? ≠ some id) :
    box.forgetSurplus.outstanding[id]? = box.outstanding[id]? := by
  unfold forgetSurplus
  cases hs : box.surplus? with
  | none => rfl
  | some least =>
    rw [Option.elim_some, Std.ExtTreeMap.getElem?_erase, if_neg]
    rw [Std.LawfulEqCmp.compare_eq_iff_eq]
    exact fun same => kept (hs.trans (congrArg some same))

/-- What the transport took can be read back and is recorded, and `messages` were sent before. -/
structure Posted (messages : List Message) (events : List Event) (next : Outbox) : Prop where
  decoded : (packetsSent events).map (Message.decode .unlimited) =
    (AreaReplication.messagesSent events).map .ok
  recorded : ∀ message ∈ AreaReplication.messagesSent events,
    next.outstanding[message.id]? = some message.record
  numbered : Numbered (messages ++ AreaReplication.messagesSent events) next
  roomy : 0 < next.capacity

/-- Limits that accept every message accept one that was written. -/
theorem decode_unlimited {link : Link} {box : Outbox} (measured : Measured box)
    (filled : box.frames ≠ []) {packet : Packet}
    (encoded : (box.pendingMessage link).encode = .ok packet) :
    Message.decode .unlimited packet = .ok (box.pendingMessage link) := by
  have small := (Message.encode_eq_ok_iff.1 encoded).1
  have admits : Limits.unlimited.Admits (box.pendingMessage link) := by
    intro count hc
    rw [Limits.get_unlimited]
    exact ⟨small count hc, Nat.le_trans (Nat.le_of_lt (small count hc)) (by decide)⟩
  refine Message.decode_encode admits encoded ?_
  have short := Message.length_form_le small
  have held := measured.small
  rw [measured.exact filled, ← pendingMessage_estimate link] at held
  rw [Message.length_packet encoded, Bits.byteCount]
  simp only [Limits.unlimited, Limits.unbounded, UInt64.size] at held ⊢
  omega

section Posted

variable {link : Link} {box next : Outbox} {messages : List Message}
  {outcome : Except SendError Unit} {events : List Event}

namespace Posted

theorem push (h : Posted messages events next) (time : Time) (center : Option Zone) :
    Posted messages events (next.pushFrame time center) := by
  refine ⟨h.decoded, ?_, h.numbered.same (pushFrame_nextId _ _ _) ?_ ?_, ?_⟩
  · rw [pushFrame_outstanding]
    exact h.recorded
  · rw [pushFrame_outstanding]
    exact fun _ _ h => h
  · rw [pushFrame_carried, pushFrame_buffered]
    exact h.numbered.carried
  · rw [pushFrame_capacity]
    exact h.roomy

theorem append (h : Posted messages events next) (opened : next.frames ≠ []) (state : Delta) :
    Posted messages events (next.appendState state) := by
  refine ⟨h.decoded, h.recorded, h.numbered.same rfl (fun _ _ h => h) ?_, h.roomy⟩
  rw [appendState_buffered opened, List.map_append, ← h.numbered.carried]
  simp [appendState, Delta.key]

theorem remark (h : Posted messages events next) (time : Time) :
    Posted messages (.frameSplit time :: events) next :=
  ⟨h.decoded, h.recorded, h.numbered, h.roomy⟩

theorem idle (h : Numbered messages next) (roomy : 0 < next.capacity) :
    Posted messages [] next :=
  ⟨rfl, nofun, by simpa using h, roomy⟩

end Posted

variable (numbered : Numbered messages box) (measured : Measured box) (roomy : 0 < box.capacity)
  (few : (messages ++ AreaReplication.messagesSent events).length < UInt64.size)
include numbered measured roomy few

theorem Flushed.posted (h : Flushed link box outcome events next) :
    Posted messages events next := by
  cases h with
  | idle => exact .idle numbered roomy
  | unwritten | refused => exact .idle (numbered.same rfl (fun _ _ h => h) rfl) roomy
  | @sent packet filled encoded taken =>
    rw [messagesSent_flushed, List.length_append, List.length_singleton] at few
    refine ⟨?_, ?_, ?_, roomy⟩
    · rw [messagesSent_flushed, packetsSent_flushed]
      simp [decode_unlimited measured filled encoded]
    · intro message hm
      rw [messagesSent_flushed, List.mem_singleton] at hm
      subst hm
      have inserted := recordSent_outstanding numbered.carried link packet.length
      have kept : (box.recordSent (box.pendingMessage link) packet.length).surplus? ≠
          some (box.pendingMessage link).id :=
        surplus?_ne_newest roomy inserted fun id held => numbered.recorded_lt held
      rw [forgetSurplus_keeps kept, inserted]
      exact Std.ExtTreeMap.getElem?_insert_self
    · rw [messagesSent_flushed]
      exact numbered.send link packet few

theorem Started.posted {time : Time} {center : Option Zone}
    (h : Started link box time center outcome events next) : Posted messages events next := by
  cases h with
  | pushed => exact (Posted.idle numbered roomy).push time center
  | failed flushed => exact flushed.posted numbered measured roomy few
  | continued _ flushed => exact (flushed.posted numbered measured roomy few).push time center

theorem Added.posted {state : Delta} (h : Added link box state outcome events next) :
    Posted messages events next := by
  cases h with
  | unopened | oversized => exact .idle numbered roomy
  | appended opened => exact (Posted.idle numbered roomy).append opened state
  | @failed time _ events _ flushed =>
    have few : (messages ++ AreaReplication.messagesSent events).length < UInt64.size := few
    exact (flushed.posted numbered measured roomy few).remark time
  | @continued frame _ events _ _ _ flushed =>
    have few : (messages ++ AreaReplication.messagesSent events).length < UInt64.size := few
    have posted := (flushed.posted numbered measured roomy few).remark frame.time
    exact (posted.push frame.time frame.center).append (pushFrame_frames _ _ _) state

theorem perform_posted {call : Call} (h : (box.perform link call).events = events) :
    Posted messages events (box.perform link call).value.2 := by
  subst h
  cases call with
  | startFrame time center =>
    exact (box.startFrame_started link time center).posted numbered measured roomy few
  | addState state => exact (box.addState_added link state).posted numbered measured roomy few
  | flush => exact (box.flush_flushed link).posted numbered measured roomy few
  | takeRecord id =>
    obtain ⟨outstanding, toEcho, rest, -, fewer⟩ := box.takeRecord_eq id
    rw [perform, rest]
    exact .idle (numbered.same rfl fewer numbered.carried) roomy
  | echo id => exact .idle (numbered.same rfl (fun _ _ h => h) numbered.carried) roomy
  | setSizeLimit bytes => exact .idle (numbered.same rfl (fun _ _ h => h) numbered.carried) roomy

end Posted

/-- A run so far, as long as the message numbers last. -/
structure Delivered (past : List Turn) (box : Outbox) : Prop where
  decoded : (packetsSent (eventsOf past)).map (Message.decode .unlimited) =
    (AreaReplication.messagesSent (eventsOf past)).map .ok
  recorded : ∀ turn ∈ past, ∀ message ∈ AreaReplication.messagesSent turn.events,
    turn.after.outstanding[message.id]? = some message.record
  numbered : Numbered (AreaReplication.messagesSent (eventsOf past)) box
  roomy : 0 < box.capacity
  measured : Measured box
  balanced : Balanced ((AreaReplication.messagesSent (eventsOf past)).flatMap Message.placed)
    (account past) box

namespace Delivered

theorem of_new (sizeLimit capacity : Nat) : Delivered [] (new sizeLimit capacity) where
  decoded := rfl
  recorded := nofun
  numbered := .of_new sizeLimit capacity
  roomy := Nat.le_max_right capacity 1
  measured := .of_new sizeLimit capacity
  balanced := ⟨rfl, nofun⟩

theorem step {past : List Turn} {turn : Turn} (h : Delivered past turn.before)
    (few : Few (eventsOf (past ++ [turn]))) : Delivered (past ++ [turn]) turn.after := by
  have events : eventsOf (past ++ [turn]) = eventsOf past ++ turn.events := by
    simp [eventsOf]
  rw [events, Few, messagesSent_append] at few
  have posted : Posted (AreaReplication.messagesSent (eventsOf past)) turn.events turn.after :=
    perform_posted h.numbered h.measured h.roomy few rfl
  constructor
  · rw [events, packetsSent, List.filterMap_append, List.map_append, messagesSent_append,
      List.map_append]
    exact congrArg₂ _ h.decoded posted.decoded
  · intro other ho
    rcases List.mem_append.1 ho with ho | ho
    · exact h.recorded other ho
    · rw [List.mem_singleton.1 ho]
      exact posted.recorded
  · rw [events, messagesSent_append]
    exact posted.numbered
  · exact posted.roomy
  · exact h.measured.perform turn.link turn.call
  · rw [events, messagesSent_append, List.flatMap_append, account_concat]
    exact h.balanced.perform turn.link turn.call

end Delivered

/-- In every run of fewer messages than there are numbers, whatever fails: the packets that the
transport took are read back as messages numbered from zero on; their states, followed by those
still buffered, are the accepted ones but for those buffered when a message was lost, in order and
each in the frame started last before it; every message is recorded as it is sent, and whatever is
on record is what its message carries. -/
theorem accepted_states_are_sent (sizeLimit capacity : Nat) (calls : List (Link × Call))
    (few : Few (play calls (new sizeLimit capacity)).events) :
    let run := play calls (new sizeLimit capacity)
    let past := turns calls (new sizeLimit capacity)
    let messages := AreaReplication.messagesSent run.events
    (packetsSent run.events).map (Message.decode .unlimited) = messages.map .ok ∧
    messages.map (fun message => message.id.toNat) = List.range messages.length ∧
    messages.flatMap Message.placed ++ run.value.placed = (account past).kept ∧
    (∀ turn ∈ past, ∀ message ∈ AreaReplication.messagesSent turn.events,
      turn.after.outstanding[message.id]? = some message.record) ∧
    ∀ (id : MessageId) (record : SentRecord), run.value.outstanding[id]? = some record →
      ∃ message, messages[id.toNat]? = some message ∧ record = message.record := by
  intro run past messages
  have events : run.events = eventsOf past := play_events calls (new sizeLimit capacity)
  have delivered : Few (eventsOf past) → Delivered past run.value := by
    refine play_keeps (P := fun past box => Few (eventsOf past) → Delivered past box)
      (fun past turn h few => ?_) calls fun _ => .of_new sizeLimit capacity
    have earlier : Few (eventsOf past) := by
      rw [eventsOf, List.flatMap_append] at few
      exact few.of_append
    exact (h earlier).step few
  obtain ⟨decoded, recorded, numbered, -, -, balanced⟩ := delivered (events ▸ few)
  rw [← events] at decoded numbered balanced
  refine ⟨decoded, numbered.numbered, balanced.kept, recorded, fun id record held => ?_⟩
  obtain ⟨message, hm, rfl, rfl⟩ := numbered.posted id record held
  exact ⟨message, numbered.getElem? hm, rfl⟩

/-- The second of two states is split off and lost, and a third one goes out in a frame of its
own. -/
def interrupted : List (Link × Call) :=
  crowded ++ (Line.link { failure := some "down" }, .flush) ::
    [.startFrame 2 none, .addState (arrival 3), .takeRecord 0, .echo 0, .flush].map fun call =>
      (Line.link {}, call)

theorem accepted_states_are_sent_interrupted : Few (play interrupted (new 53 4)).events ∧
    (AreaReplication.messagesSent (play interrupted (new 53 4)).events).flatMap Message.placed ++
        (play interrupted (new 53 4)).value.placed =
      [⟨some (1, none), arrival 1⟩, ⟨some (2, none), arrival 3⟩] := by
  have few : Few (play interrupted (new 53 4)).events := by decide +kernel
  have kept : (account (turns interrupted (new 53 4))).kept =
      [⟨some (1, none), arrival 1⟩, ⟨some (2, none), arrival 3⟩] := by decide +kernel
  obtain ⟨-, -, states, -⟩ := accepted_states_are_sent 53 4 interrupted few
  exact ⟨few, states.trans kept⟩

end Outbox

end AreaReplication
