import AreaReplication.Proofs.Play
import Mathlib.Data.List.Nodup

/-!
# What the outbox knows of the messages

As long as the message numbers last, messages are numbered in the order in which they are sent, a
record holds what its message carried, and every state in a message was queued for it.
-/
namespace AreaReplication

def Delta.key (state : Delta) : NetId × Version := (state.netId, state.version)

/-- The message numbers have not run out. -/
def Few (events : List Event) : Prop := (messagesSent events).length < UInt64.size

instance (events : List Event) : Decidable (Few events) := inferInstanceAs (Decidable (_ < _))

theorem Few.of_append {es fs : List Event} (h : Few (es ++ fs)) : Few es := by
  simp only [Few, messagesSent_append, List.length_append] at h ⊢
  omega

namespace Outbox

def buffered (box : Outbox) : List Delta :=
  box.frames.reverse.flatMap fun frame => frame.added.reverse

theorem pendingMessage_states (link : Link) (box : Outbox) :
    (box.pendingMessage link).states = box.buffered := by
  simp [pendingMessage, Message.states, buffered, ← List.map_reverse, List.flatMap_map,
    OpenFrame.close]

@[simp] theorem emptied_buffered (box : Outbox) : box.emptied.buffered = [] := rfl

@[simp] theorem pushFrame_buffered (box : Outbox) (time : Time) (center : Option Zone) :
    (box.pushFrame time center).buffered = box.buffered := by
  unfold pushFrame
  split_ifs with h
  · simp [buffered, List.isEmpty_iff.1 h]
  · simp [buffered]

theorem appendState_buffered {box : Outbox} (opened : box.frames ≠ []) (state : Delta) :
    (box.appendState state).buffered = box.buffered ++ [state] := by
  cases hf : box.frames with
  | nil => exact absurd hf opened
  | cons frame rest => simp [buffered, appendState, hf]

@[simp] theorem echo_buffered (box : Outbox) (id : MessageId) :
    (box.echo id).buffered = box.buffered := by
  simp only [echo, buffered]

theorem pushFrame_carried (box : Outbox) (time : Time) (center : Option Zone) :
    (box.pushFrame time center).carried = box.carried := by
  unfold pushFrame
  split_ifs <;> rfl

theorem pushFrame_nextId (box : Outbox) (time : Time) (center : Option Zone) :
    (box.pushFrame time center).nextId = box.nextId := by
  unfold pushFrame
  split_ifs <;> rfl

theorem pushFrame_outstanding (box : Outbox) (time : Time) (center : Option Zone) :
    (box.pushFrame time center).outstanding = box.outstanding := by
  unfold pushFrame
  split_ifs <;> rfl

theorem pushFrame_toEcho (box : Outbox) (time : Time) (center : Option Zone) :
    (box.pushFrame time center).toEcho = box.toEcho := by
  unfold pushFrame
  split_ifs <;> rfl

theorem pushFrame_capacity (box : Outbox) (time : Time) (center : Option Zone) :
    (box.pushFrame time center).capacity = box.capacity := by
  unfold pushFrame
  split_ifs <;> rfl

/-- A used record leaves the others, and the message being filled, as they are. -/
theorem takeRecord_some {box rest : Outbox} {id : MessageId} {record : SentRecord}
    (h : box.takeRecord id = some (record, rest)) : box.outstanding[id]? = some record ∧
      rest = { box with
        outstanding := box.outstanding.erase id
        toEcho := box.toEcho.filter fun ack => !record.echoed.contains ack } := by
  unfold takeRecord at h
  cases ho : box.outstanding[id]? with
  | none => simp [ho] at h
  | some found =>
    simp only [ho, Option.some.injEq, Prod.mk.injEq] at h
    obtain ⟨rfl, rfl⟩ := h
    exact ⟨rfl, rfl⟩

theorem forgetSurplus_outstanding {box : Outbox} {id : MessageId} {record : SentRecord}
    (h : box.forgetSurplus.outstanding[id]? = some record) :
    box.outstanding[id]? = some record := by
  simp only [forgetSurplus] at h
  cases hs : box.surplus? with
  | none => simpa [hs] using h
  | some least =>
    simp only [hs, Option.elim_some, Std.ExtTreeMap.getElem?_erase] at h
    split_ifs at h
    exact h

end Outbox

def Message.record (message : Message) : SentRecord where
  id := message.id
  sentAt := message.sentAt
  states := message.states.map Delta.key
  echoed := message.echoed

/-- A message that is sent is recorded with what it carries. -/
theorem Outbox.recordSent_outstanding {box : Outbox}
    (carried : box.carried.reverse = box.buffered.map Delta.key) (link : Link) (bytes : Nat) :
    (box.recordSent (box.pendingMessage link) bytes).outstanding =
      box.outstanding.insert box.nextId (box.pendingMessage link).record := by
  rw [Message.record, pendingMessage_states, ← carried]
  rfl

/-- The outbox after `messages` have been sent, numbered from zero on. -/
structure Numbered (messages : List Message) (box : Outbox) : Prop where
  numbered : messages.map (fun message => message.id.toNat) = List.range messages.length
  next : box.nextId.toNat = messages.length
  posted : ∀ id record, box.outstanding[id]? = some record →
    ∃ message ∈ messages, message.id = id ∧ record = message.record
  carried : box.carried.reverse = box.buffered.map Delta.key

namespace Numbered

variable {messages : List Message} {box next : Outbox}

theorem of_new (sizeLimit capacity : Nat) : Numbered [] (Outbox.new sizeLimit capacity) := by
  constructor <;> simp [Outbox.new, Outbox.buffered]

/-- Messages are told apart by their numbers. -/
theorem sent_inj (h : Numbered messages box) {m k : Message} (hm : m ∈ messages)
    (hk : k ∈ messages) (hid : m.id = k.id) : m = k := by
  have distinct : (messages.map fun message => message.id.toNat).Nodup := by
    rw [h.numbered]
    exact List.nodup_range
  exact List.inj_on_of_nodup_map distinct hm hk (by rw [hid])

theorem sent_lt (h : Numbered messages box) {m : Message} (hm : m ∈ messages) :
    m.id < box.nextId := by
  have hr : m.id.toNat ∈ messages.map fun message => message.id.toNat :=
    List.mem_map.2 ⟨m, hm, rfl⟩
  rw [h.numbered, List.mem_range] at hr
  rw [UInt64.lt_iff_toNat_lt, h.next]
  exact hr

theorem recorded_lt (h : Numbered messages box) {id : MessageId} (hm : id ∈ box.outstanding) :
    id < box.nextId := by
  obtain ⟨record, hr⟩ := Option.isSome_iff_exists.1 (Std.ExtTreeMap.isSome_getElem?_iff_mem.2 hm)
  obtain ⟨message, hs, rfl, -⟩ := h.posted id record hr
  exact h.sent_lt hs

/-- The number of a message is its place. -/
theorem getElem? (h : Numbered messages box) {m : Message} (hm : m ∈ messages) :
    messages[m.id.toNat]? = some m := by
  obtain ⟨place, hp⟩ := List.mem_iff_getElem?.1 hm
  have number : (messages.map fun message => message.id.toNat)[place]? = some m.id.toNat := by
    rw [List.getElem?_map, hp, Option.map_some]
  rw [h.numbered, List.getElem?_eq_some_iff] at number
  obtain ⟨_, number⟩ := number
  rw [List.getElem_range] at number
  rw [← number, hp]

/-- Of two messages, the one sent earlier has the smaller number. -/
theorem ascending (h : Numbered messages box) :
    messages.Pairwise fun earlier later => earlier.id < later.id := by
  have hp : (messages.map fun message => message.id.toNat).Pairwise (· < ·) := by
    rw [h.numbered]
    exact List.pairwise_lt_range
  exact (List.pairwise_map.1 hp).imp fun hlt => UInt64.lt_iff_toNat_lt.2 hlt

/-- An outbox that records no more of the messages. -/
theorem same (h : Numbered messages box) (number : next.nextId = box.nextId)
    (recorded : ∀ (id : MessageId) (record : SentRecord), next.outstanding[id]? = some record →
      box.outstanding[id]? = some record)
    (carried : next.carried.reverse = next.buffered.map Delta.key) : Numbered messages next :=
  ⟨h.numbered, number ▸ h.next, fun id record hr => h.posted id record (recorded id record hr),
    carried⟩

theorem next_id (h : Numbered messages box) (few : messages.length + 1 < UInt64.size) :
    box.nextId.next.toNat = box.nextId.toNat + 1 := by
  have hlt : box.nextId.toNat + 1 < UInt64.size := by rw [h.next]; exact few
  simp only [MessageId.next, if_pos hlt, UInt64.toNat_add]
  exact Nat.mod_eq_of_lt hlt

theorem send (h : Numbered messages box) (link : Link) (packet : Packet)
    (few : messages.length + 1 < UInt64.size) :
    Numbered (messages ++ [box.pendingMessage link])
      (box.recordSent (box.pendingMessage link) packet.length).forgetSurplus := by
  constructor
  · rw [List.map_append, h.numbered, List.length_append, List.length_singleton, List.range_succ,
      ← h.next]
    rfl
  · rw [List.length_append, List.length_singleton, ← h.next, ← h.next_id few]
    rfl
  · intro id record hr
    have hr := Outbox.forgetSurplus_outstanding hr
    simp only [Outbox.recordSent_outstanding h.carried, Std.ExtTreeMap.getElem?_insert,
      Std.LawfulEqCmp.compare_eq_iff_eq] at hr
    split_ifs at hr with hid
    · exact ⟨box.pendingMessage link, by simp, hid, (Option.some.inj hr).symm⟩
    · obtain ⟨message, hm, rest⟩ := h.posted id record hr
      exact ⟨message, List.mem_append_left _ hm, rest⟩
  · rfl

end Numbered

structure Ledger (events : List Event) (box : Outbox) : Prop
    extends Numbered (messagesSent events) box where
  sent_queued : ∀ message ∈ messagesSent events, ∀ state ∈ message.states,
    ∃ entity shown, .queued message.id entity shown state ∈ events
  buffered_queued : ∀ state ∈ box.buffered,
    ∃ entity shown, .queued box.nextId entity shown state ∈ events
  queued_le : ∀ message entity shown state, .queued message entity shown state ∈ events →
    message ≤ box.nextId

namespace Ledger

variable {events es : List Event} {box next : Outbox}

theorem recorded (h : Ledger events box) (id : MessageId) (record : SentRecord)
    (hr : box.outstanding[id]? = some record) : record.id = id ∧
      ∃ message ∈ messagesSent events, message.id = id ∧
        record.states = message.states.map Delta.key ∧ record.echoed = message.echoed := by
  obtain ⟨message, hm, hid, rfl⟩ := h.posted id record hr
  exact ⟨hid, message, hm, hid, rfl, rfl⟩

/-- Events other than sent messages, and an outbox with the same records and buffer. -/
theorem same (h : Ledger events box) (quiet : messagesSent es = [])
    (queued : ∀ message entity shown state, .queued message entity shown state ∈ es →
      message ≤ next.nextId)
    (hnext : next.nextId = box.nextId)
    (recorded : ∀ (id : MessageId) (record : SentRecord), next.outstanding[id]? = some record →
      box.outstanding[id]? = some record)
    (carried : next.carried.reverse = next.buffered.map Delta.key)
    (buffered : ∀ state ∈ next.buffered, state ∈ box.buffered ∨
      ∃ entity shown, .queued next.nextId entity shown state ∈ es) :
    Ledger (events ++ es) next := by
  have sent : messagesSent (events ++ es) = messagesSent events := by simp [quiet]
  refine ⟨sent ▸ h.toNumbered.same hnext recorded carried, ?_, ?_, ?_⟩
  · intro message hm state hs
    rw [sent] at hm
    obtain ⟨entity, shown, hq⟩ := h.sent_queued message hm state hs
    exact ⟨entity, shown, List.mem_append_left _ hq⟩
  · intro state hs
    rcases buffered state hs with hs | ⟨entity, shown, hq⟩
    · obtain ⟨entity, shown, hq⟩ := h.buffered_queued state hs
      exact ⟨entity, shown, hnext ▸ List.mem_append_left _ hq⟩
    · exact ⟨entity, shown, List.mem_append_right _ hq⟩
  · intro message entity shown state hq
    rcases List.mem_append.1 hq with hq | hq
    · exact hnext ▸ h.queued_le message entity shown state hq
    · exact queued message entity shown state hq

/-- Silent events, and an outbox that buffers nothing new. -/
theorem silent (h : Ledger events box) (silent : Silent es) (number : next.nextId = box.nextId)
    (recorded : ∀ (id : MessageId) (record : SentRecord), next.outstanding[id]? = some record →
      box.outstanding[id]? = some record)
    (carried : next.carried.reverse = next.buffered.map Delta.key)
    (fewer : ∀ state ∈ next.buffered, state ∈ box.buffered) : Ledger (events ++ es) next :=
  h.same silent.messagesSent (fun _ _ _ _ hq => absurd hq (silent.not_queued _ _ _ _)) number
    recorded carried fun state hs => .inl (fewer state hs)

theorem next_le (h : Ledger events box) {message : Message} {packet : Packet}
    (few : Few (events ++ [.sent message packet])) : box.nextId ≤ box.nextId.next := by
  rw [Few, messagesSent_concat, List.length_append, List.length_singleton] at few
  rw [UInt64.le_iff_toNat_le, h.next_id few]
  omega

theorem send (h : Ledger events box) (link : Link) {packet : Packet}
    (few : Few (events ++ [.sent (box.pendingMessage link) packet])) :
    Ledger (events ++ [.sent (box.pendingMessage link) packet])
      (box.recordSent (box.pendingMessage link) packet.length).forgetSurplus := by
  have later := h.next_le few
  rw [Few, messagesSent_concat, List.length_append, List.length_singleton] at few
  refine ⟨?_, ?_, ?_, ?_⟩
  · rw [messagesSent_concat]
    exact h.toNumbered.send link packet few
  · intro message hm state hs
    rw [messagesSent_concat] at hm
    obtain ⟨entity, shown, hq⟩ : ∃ entity shown,
        .queued message.id entity shown state ∈ events := by
      rcases List.mem_append.1 hm with hm | hm
      · exact h.sent_queued message hm state hs
      · obtain rfl := List.mem_singleton.1 hm
        rw [Outbox.pendingMessage_states] at hs
        exact h.buffered_queued state hs
    exact ⟨entity, shown, List.mem_append_left _ hq⟩
  · intro state hs
    cases hs
  · intro message entity shown state hq
    rcases List.mem_append.1 hq with hq | hq
    · exact UInt64.le_trans (h.queued_le message entity shown state hq) later
    · cases List.mem_singleton.1 hq

theorem step (h : Ledger events box) {link : Link} (few : Few (events ++ es))
    (step : Outbox.Step link box es next) : Ledger (events ++ es) next := by
  cases step with
  | remark hr => exact h.silent (.of_remark hr) rfl (fun _ _ hm => hm) h.carried fun _ hs => hs
  | resize => exact h.silent silent_nil rfl (fun _ _ hm => hm) h.carried fun _ hs => hs
  | send => exact h.send link few
  | drop => exact h.silent silent_nil rfl (fun _ _ hm => hm) rfl fun _ hs => by cases hs
  | push time center =>
    refine h.silent silent_nil (Outbox.pushFrame_nextId _ _ _) ?_ ?_ ?_
    · rw [Outbox.pushFrame_outstanding]
      exact fun _ _ hm => hm
    · rw [Outbox.pushFrame_carried, Outbox.pushFrame_buffered]
      exact h.carried
    · rw [Outbox.pushFrame_buffered]
      exact fun _ hs => hs

variable {core after : Core}

theorem input {now : Time} (tidy : core.Tidy) (h : Ledger events core.box)
    (step : Core.Input now core es after) : Ledger (events ++ es) after.box := by
  rw [step.box]
  exact h.silent (step.silent tidy) rfl (fun _ _ hm => hm) h.carried fun _ hs => hs

theorem output {link : Link} {now : Time} {acked : List MessageId} (h : Ledger events core.box)
    (few : Few (events ++ es)) (step : Core.Output link now acked core es after) :
    Ledger (events ++ es) after.box := by
  have unmoved : ∀ {es}, Silent es → Ledger (events ++ es) core.box :=
    fun silent => h.silent silent rfl (fun _ _ hm => hm) h.carried fun _ hs => hs
  cases step with
  | outbox step => exact h.step few step
  | @settle id record box posted recorded =>
    obtain ⟨_, rfl⟩ := Outbox.takeRecord_some recorded
    have fewer : ∀ (other : MessageId) (record : SentRecord),
        (core.box.outstanding.erase id)[other]? = some record →
        core.box.outstanding[other]? = some record := by
      intro other record hr
      rw [Std.ExtTreeMap.getElem?_erase] at hr
      split_ifs at hr
      exact hr
    simp only [Core.settle]
    split_ifs
    · refine h.silent silent_nil rfl fewer ?_ ?_
      · rw [Outbox.echo_buffered]
        exact h.carried
      · rw [Outbox.echo_buffered]
        exact fun _ hs => hs
    · exact h.silent silent_nil rfl fewer h.carried fun _ hs => hs
  | release => exact unmoved silent_nil
  | present => exact unmoved silent_nil
  | @queue replica held opened =>
    refine h.same rfl ?_ rfl (fun _ _ hm => hm) ?_ ?_
    · intro message entity shown state hm
      cases List.mem_singleton.1 hm
      exact UInt64.le_rfl
    · rw [Outbox.appendState_buffered opened, List.map_append, ← h.carried]
      simp [Outbox.appendState, Delta.key]
    · intro state hs
      rw [Outbox.appendState_buffered opened] at hs
      rcases List.mem_append.1 hs with hs | hs
      · exact .inl hs
      · obtain rfl := List.mem_singleton.1 hs
        exact .inr ⟨_, _, List.mem_singleton.2 rfl⟩
  | reap => exact unmoved (Core.retire_silent _ _ _)

theorem of_new (grid : Grid) (settings : Settings) :
    Ledger [] (Session.new grid settings).outbox := by
  exact ⟨.of_new _ _, by simp, by simp [Session.new, Outbox.new, Outbox.buffered], by simp⟩

end Ledger

/-- Operations keep the ledger as long as the message numbers last. -/
theorem Session.Call.Step.ledger {link : Link} {acked : List MessageId} {call : Session.Call}
    {core next : Core} {events es : List Event} (step : call.Step link acked core es next)
    (tidy : core.Tidy) (h : Few events → Ledger events core.box) (few : Few (events ++ es)) :
    Ledger (events ++ es) next.box := by
  have h := h few.of_append
  cases call with
  | stateChanged => exact h.input tidy step
  | endFrame => exact h.output few step
  | _ =>
    obtain ⟨box, step, rfl⟩ := step
    exact h.step few step

end AreaReplication
