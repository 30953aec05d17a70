import AreaReplication.Outbox
import AreaReplication.Proofs.Path
import Mathlib.Tactic.SplitIfs

/-!
# The steps of the outbox

Whatever is asked of the outbox, it sends the message being filled, drops it, opens a frame in it or
appends a state to it. A `Step` is any of these but the last: an operation that adds a state does so
after all other steps. `Flushed`, `Started` and `Added` list the results of the three operations
that may send.
-/
namespace AreaReplication.Outbox

inductive Step (link : Link) : Outbox → List Event → Outbox → Prop where
  | remark (box : Outbox) {event : Event} (h : event.isRemark) : Step link box [event] box
  | resize (box : Outbox) (bytes : Nat) : Step link box [] { box with sizeLimit := bytes }
  | send (box : Outbox) {packet : Packet} (filled : box.frames ≠ [])
      (encoded : (box.pendingMessage link).encode = .ok packet)
      (taken : link.refuses box.nextId = none) :
      Step link box [.sent (box.pendingMessage link) packet]
        (box.recordSent (box.pendingMessage link) packet.length).forgetSurplus
  | drop (box : Outbox) : Step link box [] box.emptied
  | push (box : Outbox) (time : Time) (center : Option Zone) :
      Step link box [] (box.pushFrame time center)

namespace Step

variable {link : Link} {box next : Outbox} {events : List Event}

theorem not_queued (step : Step link box events next) (message : MessageId) (entity : EntityId)
    (shown : Snapshot) (state : Delta) : .queued message entity shown state ∉ events := by
  cases step with
  | remark h => exact (Silent.of_remark h).not_queued _ _ _ _
  | _ => simp

theorem not_assigned (step : Step link box events next) (id : NetId) (entity : EntityId) :
    .idAssigned id entity ∉ events := by
  cases step with
  | remark h => exact Event.not_assigned h id entity
  | _ => simp

end Step

inductive Flushed (link : Link) (box : Outbox) :
    Except SendError Unit → List Event → Outbox → Prop where
  | idle (empty : box.frames = []) : Flushed link box (.ok ()) [] box
  | unwritten {cause : EncodeError} (filled : box.frames ≠ [])
      (unwritten : (box.pendingMessage link).encode = .error cause) :
      Flushed link box (.error (.encode box.nextId cause)) [] box.emptied
  | refused {packet : Packet} {refusal : Refusal} (filled : box.frames ≠ [])
      (encoded : (box.pendingMessage link).encode = .ok packet)
      (refused : link.refuses box.nextId = some refusal) :
      Flushed link box (.error (.send box.nextId refusal)) [] box.emptied
  | sent {packet : Packet} (filled : box.frames ≠ [])
      (encoded : (box.pendingMessage link).encode = .ok packet)
      (taken : link.refuses box.nextId = none) :
      Flushed link box (.ok ())
        (.sent (box.pendingMessage link) packet ::
          (box.recordSent (box.pendingMessage link) packet.length).surplus?.toList.map .expired)
        (box.recordSent (box.pendingMessage link) packet.length).forgetSurplus

inductive Started (link : Link) (box : Outbox) (time : Time) (center : Option Zone) :
    Except SendError Unit → List Event → Outbox → Prop where
  | pushed (fits : box.frames ≠ [] →
      box.pendingBits + frameHeaderBits time center ≤ box.bitLimit) :
      Started link box time center (.ok ()) [] (box.pushFrame time center)
  | failed {error : SendError} {events : List Event} {next : Outbox}
      (flushed : Flushed link box (.error error) events next) :
      Started link box time center (.error error) events next
  | continued {events : List Event} {next : Outbox} (filled : box.frames ≠ [])
      (flushed : Flushed link box (.ok ()) events next) :
      Started link box time center (.ok ()) events (next.pushFrame time center)

inductive Added (link : Link) (box : Outbox) (state : Delta) :
    Except SendError Unit → List Event → Outbox → Prop where
  | unopened (empty : box.frames = []) : Added link box state (.error .frameNotStarted) [] box
  | oversized {needed : Nat} (large : box.bitLimit < needed) :
      Added link box state (.error (.stateTooLarge state.netId needed box.bitLimit)) [] box
  | appended (opened : box.frames ≠ []) (fits : box.pendingBits + state.bitCount ≤ box.bitLimit) :
      Added link box state (.ok ()) [] (box.appendState state)
  | failed {time : Time} {error : SendError} {events : List Event} {next : Outbox}
      (flushed : Flushed link box (.error error) events next) :
      Added link box state (.error error) (.frameSplit time :: events) next
  | continued {frame : OpenFrame} {rest : List OpenFrame} {events : List Event} {next : Outbox}
      (opened : box.frames = frame :: rest)
      (fits : box.freshBits + frameHeaderBits frame.time frame.center + state.bitCount ≤
        box.bitLimit)
      (flushed : Flushed link box (.ok ()) events next) :
      Added link box state (.ok ()) (.frameSplit frame.time :: events)
        ((next.pushFrame frame.time frame.center).appendState state)

variable (link : Link) (box : Outbox) (time : Time) (center : Option Zone)

theorem pushFrame_frames : (box.pushFrame time center).frames ≠ [] := by
  simp [pushFrame]

theorem flush_flushed : Flushed link box (box.flush link).value.1 (box.flush link).events
    (box.flush link).value.2 := by
  unfold flush
  by_cases hf : box.frames.isEmpty
  · rw [if_pos hf]
    exact .idle (List.isEmpty_iff.1 hf)
  · rw [if_neg hf]
    have filled : box.frames ≠ [] := fun h => hf (List.isEmpty_iff.2 h)
    cases he : (box.pendingMessage link).encode with
    | error cause =>
      simp only [he]
      exact .unwritten filled he
    | ok packet =>
      cases hr : link.refuses (box.pendingMessage link).id with
      | some refusal =>
        simp only [he, hr]
        exact .refused filled he hr
      | none =>
        simp only [he, hr]
        exact .sent filled he hr

/-- A frame is pushed behind a message that was sent, and not behind one that failed. -/
theorem flushThenPush_eq {outcome : Except SendError Unit} {events : List Event} {next : Outbox}
    (h : box.flush link = ⟨(outcome, next), events⟩) :
    box.flushThenPush link time center =
      ⟨(outcome, if outcome.isOk then next.pushFrame time center else next), events⟩ := by
  cases outcome <;> simp [flushThenPush, h, bind, pure, Except.isOk, Except.toBool]

theorem startFrame_started : Started link box time center (box.startFrame link time center).value.1
    (box.startFrame link time center).events (box.startFrame link time center).value.2 := by
  have flushed := box.flush_flushed link
  unfold startFrame
  split_ifs with full
  · obtain ⟨filled, -⟩ := full
    have filled : box.frames ≠ [] := by simpa [hasBuffered] using filled
    generalize hf : box.flush link = result at flushed
    obtain ⟨⟨outcome, next⟩, events⟩ := result
    rw [box.flushThenPush_eq link time center hf]
    cases outcome with
    | error error => exact .failed flushed
    | ok => exact .continued filled flushed
  · refine .pushed fun filled => Nat.not_lt.1 fun large => full ⟨?_, large⟩
    simpa [hasBuffered] using filled

theorem addState_added (state : Delta) : Added link box state (box.addState link state).value.1
    (box.addState link state).events (box.addState link state).value.2 := by
  have flushed := box.flush_flushed link
  unfold addState
  cases hf : box.frames with
  | nil => exact .unopened hf
  | cons frame rest =>
    simp only
    split_ifs with full large
    · exact .oversized large
    · generalize hb : box.flush link = result at flushed
      obtain ⟨⟨outcome, next⟩, events⟩ := result
      rw [box.flushThenPush_eq link frame.time frame.center hb]
      cases outcome with
      | error error =>
        simp only [note, Bind.bind, Pure.pure, List.append_nil, List.singleton_append]
        exact .failed flushed
      | ok =>
        simp only [note, Bind.bind, Pure.pure, List.append_nil, List.singleton_append]
        exact .continued hf (Nat.not_lt.1 large) flushed
    · exact .appended (by simp [hf]) (Nat.not_lt.1 full)

/-- A state that fits behind what is in the message being filled joins it. -/
theorem addState_of_fits {state : Delta} (opened : box.frames ≠ [])
    (fits : box.pendingBits + state.bitCount ≤ box.bitLimit) :
    (box.addState link state).value = (.ok (), box.appendState state) := by
  obtain ⟨frame, rest, frames⟩ := List.exists_cons_of_ne_nil opened
  unfold addState
  rw [frames]
  simp only [if_neg (Nat.not_lt.2 fits)]
  rfl

theorem flush_of_taken (filled : box.frames ≠ []) {packet : Packet}
    (encoded : (box.pendingMessage link).encode = .ok packet)
    (taken : link.refuses box.nextId = none) :
    .sent (box.pendingMessage link) packet ∈ (box.flush link).events := by
  have buffered : ¬ box.frames.isEmpty := fun empty => filled (List.isEmpty_iff.1 empty)
  have free : link.refuses (box.pendingMessage link).id = none := taken
  unfold flush
  rw [if_neg buffered]
  simp only [encoded, free]
  exact List.mem_cons_self

/-- States that are appended stand in the current frame in their order. -/
theorem foldl_appendState {box : Outbox} {frame : OpenFrame} {rest : List OpenFrame}
    (opened : box.frames = frame :: rest) (states : List Delta) :
    (states.foldl appendState box).frames =
        { frame with added := states.reverse ++ frame.added } :: rest ∧
      (states.foldl appendState box).nextId = box.nextId ∧
      (states.foldl appendState box).echoed = box.echoed := by
  induction states generalizing box frame with
  | nil => exact ⟨opened, rfl, rfl⟩
  | cons state later ih =>
    have appended : (box.appendState state).frames =
        { frame with added := state :: frame.added } :: rest := by
      rw [appendState, opened]
      rfl
    obtain ⟨frames, number, echoed⟩ := ih appended
    rw [List.foldl_cons, List.reverse_cons, List.append_assoc]
    exact ⟨frames, number, echoed⟩

section Path

variable {link box} {outcome : Except SendError Unit} {events : List Event} {next : Outbox}

theorem Flushed.path (h : Flushed link box outcome events next) :
    Path (Step link) box events next := by
  cases h with
  | idle => exact .refl box
  | unwritten | refused => exact .single (.drop box)
  | sent filled encoded taken =>
    have sent : Path (Step link) box _ _ := .single (.send box filled encoded taken)
    refine sent.trans (.remarks fun event hm => .remark _ ?_)
    obtain ⟨id, -, rfl⟩ := List.mem_map.1 hm
    rfl

theorem Started.path {time : Time} {center : Option Zone}
    (h : Started link box time center outcome events next) : Path (Step link) box events next := by
  cases h with
  | pushed => exact .single (.push box time center)
  | failed flushed => exact flushed.path
  | continued _ flushed =>
    rw [← List.append_nil events]
    exact flushed.path.tail (.push _ time center)

/-- A state is appended to an outbox with an open frame that steps lead to; a failure
leaves such an outbox as it is. -/
theorem Added.path {state : Delta} (h : Added link box state outcome events next) : ∃ before,
    Path (Step link) box events before ∧
      ((outcome = .ok () ∧ next = before.appendState state ∧ before.frames ≠ []) ∨
        ∃ error, outcome = .error error ∧ next = before) := by
  have split : ∀ time, Path (Step link) box [.frameSplit time] box :=
    fun time => .single (.remark box rfl)
  cases h with
  | unopened | oversized => exact ⟨box, .refl box, .inr ⟨_, rfl, rfl⟩⟩
  | appended opened => exact ⟨box, .refl box, .inl ⟨rfl, rfl, opened⟩⟩
  | @failed time _ _ _ flushed =>
    exact ⟨_, (split time).trans flushed.path, .inr ⟨_, rfl, rfl⟩⟩
  | @continued frame _ _ next opened _ flushed =>
    refine ⟨next.pushFrame frame.time frame.center, ?_, .inl ⟨rfl, rfl, pushFrame_frames _ _ _⟩⟩
    have pushed := ((split frame.time).trans flushed.path).tail (.push _ frame.time frame.center)
    rwa [List.append_nil] at pushed

end Path

theorem flush_path : Path (Step link) box (box.flush link).events (box.flush link).value.2 :=
  (box.flush_flushed link).path

theorem startFrame_path : Path (Step link) box (box.startFrame link time center).events
    (box.startFrame link time center).value.2 :=
  (box.startFrame_started link time center).path

theorem addState_path (state : Delta) : ∃ before,
    Path (Step link) box (box.addState link state).events before ∧
      (((box.addState link state).value = (.ok (), before.appendState state) ∧
          before.frames ≠ []) ∨
        ∃ error, (box.addState link state).value = (.error error, before)) := by
  obtain ⟨before, path, ⟨outcome, next, opened⟩ | ⟨error, outcome, next⟩⟩ :=
    (box.addState_added link state).path
  · exact ⟨before, path, .inl ⟨Prod.ext outcome next, opened⟩⟩
  · exact ⟨before, path, .inr ⟨error, Prod.ext outcome next⟩⟩

end AreaReplication.Outbox
