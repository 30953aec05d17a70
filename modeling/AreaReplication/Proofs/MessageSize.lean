import AreaReplication.Proofs.OutboxRun

/-!
# Messages keep to the size limit

A message that holds a state is no longer than the limit that was in force when it was last added
to, whether the transport takes it or not. A state that opens a message is checked with the number
of the message before, so the estimate may be one group above the limit; the two counts, for which
it reserves more than they take, make up for that.
-/
namespace AreaReplication.Outbox

/-- The operation handed a message to the transport, which took it or refused it. -/
inductive Turn.Hands (turn : Turn) : Message → Packet → Prop where
  | taken {message : Message} {packet : Packet} (sent : .sent message packet ∈ turn.events) :
      Hands turn message packet
  | refused {packet : Packet} {refusal : Refusal}
      (encoded : (turn.before.pendingMessage turn.link).encode = .ok packet)
      (failed : turn.outcome = .error (.send turn.before.nextId refusal)) :
      Hands turn (turn.before.pendingMessage turn.link) packet

/-- The operation opened a frame in the message being filled, or added a state to it. -/
def Turn.appends (turn : Turn) : Bool :=
  match turn.call with
  | .startFrame .. | .addState _ => turn.outcome.isOk
  | _ => false

/-- The last operation that added to a message. Whatever is in the message being filled, this is
the one that added to it last. -/
def lastAppended (past : List Turn) : Option Turn := (past.filter Turn.appends).getLast?

theorem lastAppended_of_appends (past : List Turn) {turn : Turn} (h : turn.appends) :
    lastAppended (past ++ [turn]) = some turn := by
  simp [lastAppended, h]

theorem lastAppended_of_not_appends (past : List Turn) {turn : Turn} (h : ¬ turn.appends) :
    lastAppended (past ++ [turn]) = lastAppended past := by
  simp [lastAppended, h]

/-- The estimate is within `limit` bytes, or a single state that opened the message is a group
above it. -/
def Within (limit : Nat) (box : Outbox) : Prop :=
  box.pendingBits ≤ 8 * limit ∨ ∃ frame state, box.frames = [frame] ∧ frame.added = [state] ∧
    box.pendingBits ≤ 8 * limit + 8

section Within

variable {link : Link} {box next : Outbox} {outcome : Except SendError Unit} {events : List Event}
  {limit : Nat}

/-- What is sent is the message being filled. -/
theorem Flushed.sent_pending (h : Flushed link box outcome events next) {message : Message}
    {packet : Packet} (sent : .sent message packet ∈ events) :
    message = box.pendingMessage link ∧ message.encode = .ok packet := by
  cases h with
  | sent _ encoded =>
    rcases List.mem_cons.1 sent with here | later
    · cases here
      exact ⟨rfl, encoded⟩
    · obtain ⟨id, -, he⟩ := List.mem_map.1 later
      cases he
  | _ => cases sent

theorem Started.sent_pending {time : Time} {center : Option Zone}
    (h : Started link box time center outcome events next) {message : Message} {packet : Packet}
    (sent : .sent message packet ∈ events) :
    message = box.pendingMessage link ∧ message.encode = .ok packet := by
  cases h with
  | pushed => cases sent
  | failed flushed => exact flushed.sent_pending sent
  | continued _ flushed => exact flushed.sent_pending sent

theorem Added.sent_pending {state : Delta} (h : Added link box state outcome events next)
    {message : Message} {packet : Packet} (sent : .sent message packet ∈ events) :
    message = box.pendingMessage link ∧ message.encode = .ok packet := by
  cases h with
  | failed flushed | continued _ _ flushed =>
    rcases List.mem_cons.1 sent with here | flushing
    · cases here
    · exact flushed.sent_pending flushing
  | _ => cases sent

/-- Whatever an operation hands to the transport is the message being filled when it began. -/
theorem Turn.Hands.pending {turn : Turn} {message : Message} {packet : Packet}
    (h : turn.Hands message packet) : message = turn.before.pendingMessage turn.link ∧
      message.encode = .ok packet := by
  cases h with
  | refused encoded => exact ⟨rfl, encoded⟩
  | taken sent =>
    obtain ⟨link, box, call⟩ := turn
    cases call with
    | startFrame time center => exact (box.startFrame_started link time center).sent_pending sent
    | addState state => exact (box.addState_added link state).sent_pending sent
    | flush => exact (box.flush_flushed link).sent_pending sent
    | _ => cases sent

theorem buffered_of_empty (empty : box.frames = []) : box.buffered = [] := by
  simp [buffered, empty]

theorem Started.within {time : Time} {center : Option Zone}
    (h : Started link box time center outcome events next) (filled : next.buffered ≠ []) :
    outcome = .ok () ∧ next.Within box.sizeLimit := by
  cases h with
  | pushed fits =>
    rw [pushFrame_buffered] at filled
    have opened : box.frames ≠ [] := fun empty => filled (buffered_of_empty empty)
    refine ⟨rfl, .inl ?_⟩
    rw [pushFrame_of_filled opened]
    exact Nat.le_trans (fits opened) box.bitLimit_le
  | failed flushed => exact absurd (buffered_of_empty flushed.frames) filled
  | continued _ flushed =>
    rw [pushFrame_buffered] at filled
    exact absurd (buffered_of_empty flushed.frames) filled

theorem Added.within {state : Delta} (h : Added link box state outcome events next)
    (filled : next.buffered ≠ []) :
    outcome = .ok () ∧ next.Within box.sizeLimit ∨ ¬ outcome.isOk ∧ next = box := by
  have limit := box.bitLimit_le
  cases h with
  | unopened | oversized => exact .inr ⟨Bool.false_ne_true, rfl⟩
  | appended opened fits => exact .inl ⟨rfl, .inl (Nat.le_trans fits limit)⟩
  | failed flushed => exact absurd (buffered_of_empty flushed.frames) filled
  | @continued frame _ _ next _ fits flushed =>
    have fresh := flushed.freshBits_le
    refine .inl ⟨rfl, .inr ⟨⟨frame.time, frame.center, [state]⟩, state, ?_, rfl, ?_⟩⟩
    · rw [pushFrame_of_empty flushed.frames]
      rfl
    · rw [pushFrame_of_empty flushed.frames]
      simp only [appendState]
      omega

/-- What is within the limit by its estimate is so by its length. -/
theorem Within.length_le (within : box.Within limit) (measured : Measured box)
    (filled : box.frames ≠ []) {packet : Packet}
    (encoded : (box.pendingMessage link).encode = .ok packet) : packet.length ≤ limit := by
  have exact := measured.exact filled
  rw [← pendingMessage_estimate link] at exact
  rw [Message.length_packet encoded, Bits.byteCount]
  rcases within with fits | ⟨frame, state, single, added, fits⟩
  · have small := (Message.encode_eq_ok_iff.1 encoded).1
    have short := Message.length_form_le small
    omega
  · have frames : (box.pendingMessage link).frames = [frame.close] := by
      simp [pendingMessage, single]
    have states : frame.close.states = [state] := by simp [OpenFrame.close, added]
    have short := Message.length_form_single frames states
    omega

end Within

structure Fitting (past : List Turn) (box : Outbox) : Prop where
  measured : Measured box
  within : box.buffered ≠ [] →
    ∃ last, lastAppended past = some last ∧ box.Within last.before.sizeLimit

namespace Fitting

variable {past : List Turn} {turn : Turn}

theorem of_new (sizeLimit capacity : Nat) : Fitting [] (new sizeLimit capacity) :=
  ⟨.of_new sizeLimit capacity, fun filled => absurd rfl filled⟩

/-- An operation that leaves the message being filled as it is. -/
theorem same (h : Fitting past turn.before) (frames : turn.after.frames = turn.before.frames)
    (bits : turn.after.pendingBits = turn.before.pendingBits) (idle : ¬ turn.appends) :
    turn.after.buffered ≠ [] → ∃ last, lastAppended (past ++ [turn]) = some last ∧
      turn.after.Within last.before.sizeLimit := by
  intro filled
  have filled : turn.before.buffered ≠ [] := by rwa [buffered, frames] at filled
  obtain ⟨last, appended, within⟩ := h.within filled
  refine ⟨last, ?_, ?_⟩
  · rw [lastAppended_of_not_appends past idle, appended]
  · rwa [Within, frames, bits]

theorem step (h : Fitting past turn.before) : Fitting (past ++ [turn]) turn.after := by
  obtain ⟨link, box, call⟩ := turn
  refine ⟨h.measured.perform link call, ?_⟩
  cases call with
  | startFrame time center =>
    intro filled
    obtain ⟨ok, within⟩ := (box.startFrame_started link time center).within filled
    refine ⟨_, lastAppended_of_appends past ?_, within⟩
    simp only [Turn.appends, Turn.outcome, perform, ok]
    rfl
  | addState state =>
    intro filled
    rcases (box.addState_added link state).within filled with ⟨ok, within⟩ | ⟨failed, unmoved⟩
    · refine ⟨_, lastAppended_of_appends past ?_, within⟩
      simp only [Turn.appends, Turn.outcome, perform, ok]
      rfl
    · have frames := congrArg Outbox.frames unmoved
      have bits := congrArg Outbox.pendingBits unmoved
      exact h.same frames bits failed filled
  | flush =>
    exact fun filled => absurd (buffered_of_empty (box.flush_flushed link).frames) filled
  | takeRecord id =>
    obtain ⟨outstanding, toEcho, rest, -⟩ := box.takeRecord_eq id
    have frames := congrArg Outbox.frames rest
    have bits := congrArg Outbox.pendingBits rest
    exact h.same frames bits Bool.false_ne_true
  | echo id => exact h.same rfl rfl Bool.false_ne_true
  | setSizeLimit bytes => exact h.same rfl rfl Bool.false_ne_true

/-- What is handed over with a state in it is as long as the limit allowed, or shorter. -/
theorem length_le (h : Fitting past turn.before) {message : Message} {packet : Packet}
    (handed : turn.Hands message packet) (carries : message.states ≠ []) :
    ∃ last, lastAppended past = some last ∧ packet.length ≤ last.before.sizeLimit := by
  obtain ⟨rfl, encoded⟩ := handed.pending
  have filled : turn.before.buffered ≠ [] := by rwa [pendingMessage_states] at carries
  have opened : turn.before.frames ≠ [] := fun empty => filled (buffered_of_empty empty)
  obtain ⟨last, appended, within⟩ := h.within filled
  exact ⟨last, appended, within.length_le h.measured opened encoded⟩

end Fitting

/-- In every run, a message with a state in it that the next operation hands to the transport is at
most as long as the size limit when a frame or a state was last added. -/
theorem handed_messages_fit (sizeLimit capacity : Nat) (calls : List (Link × Call)) (link : Link)
    (call : Call) {message : Message} {packet : Packet}
    (handed : Turn.Hands ⟨link, (play calls (new sizeLimit capacity)).value, call⟩ message packet)
    (carries : message.states ≠ []) :
    ∃ last, lastAppended (turns calls (new sizeLimit capacity)) = some last ∧
      packet.length ≤ last.before.sizeLimit := by
  have fitting : Fitting (turns calls (new sizeLimit capacity))
      (play calls (new sizeLimit capacity)).value :=
    play_keeps (fun _ _ h => h.step) calls (Fitting.of_new sizeLimit capacity)
  exact fitting.length_le handed carries

/-- The message with the second state meets a transport that refuses it. -/
def crowdedRefusal : Turn where
  link := Line.link { failure := some "down" }
  before := (play crowded (new 53 4)).value
  call := .flush

theorem handed_messages_fit_refused : ∃ message packet,
    crowdedRefusal.Hands message packet ∧ message.states ≠ [] ∧ packet.length ≤ 53 := by
  have small : ∀ count ∈ (crowdedRefusal.before.pendingMessage crowdedRefusal.link).counts,
      count.2 < Message.countBound := by decide +kernel
  have failed : crowdedRefusal.outcome =
      .error (.send crowdedRefusal.before.nextId (.failed "down")) := by decide +kernel
  have handed := Turn.Hands.refused (Message.encode_eq_ok_iff.2 ⟨small, rfl⟩) failed
  have carries : (crowdedRefusal.before.pendingMessage crowdedRefusal.link).states ≠ [] := by
    decide +kernel
  have limit : (lastAppended (turns crowded (new 53 4))).all
      fun last => last.before.sizeLimit = 53 := by decide +kernel
  obtain ⟨last, appended, fits⟩ := handed_messages_fit 53 4 crowded _ _ handed carries
  rw [appended] at limit
  rw [of_decide_eq_true limit] at fits
  exact ⟨_, _, handed, carries, fits⟩

end AreaReplication.Outbox
