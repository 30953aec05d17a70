import AreaReplication.Proofs.Ledger
import AreaReplication.Proofs.Size

/-!
# Runs of an outbox

A run performs its operations one after the other, whether they fail or not, and each meets its own
clock and transport. The size estimate of the message being filled is exact in every state that a
run leads to, as far as it can be before the counts are known.
-/
namespace AreaReplication.Outbox

inductive Call where
  | startFrame (time : Time) (center : Option Zone)
  | addState (state : Delta)
  | flush
  | takeRecord (id : MessageId)
  | echo (id : MessageId)
  | setSizeLimit (bytes : Nat)
  deriving DecidableEq, Repr

def perform (link : Link) (box : Outbox) : Call → Noted (Except SendError Unit × Outbox)
  | .startFrame time center => box.startFrame link time center
  | .addState state => box.addState link state
  | .flush => box.flush link
  | .takeRecord id => return (.ok (), (box.takeRecord id).elim box Prod.snd)
  | .echo id => return (.ok (), box.echo id)
  | .setSizeLimit bytes => return (.ok (), { box with sizeLimit := bytes })

/-- Using up a record leaves all else but the echoes as it is. -/
theorem takeRecord_eq (box : Outbox) (id : MessageId) : ∃ outstanding toEcho,
    (box.takeRecord id).elim box Prod.snd = { box with outstanding, toEcho } ∧
      toEcho.length ≤ box.toEcho.length ∧
      ∀ (other : MessageId) (record : SentRecord), outstanding[other]? = some record →
        box.outstanding[other]? = some record := by
  cases taken : box.takeRecord id with
  | none => exact ⟨_, _, rfl, Nat.le_refl _, fun _ _ h => h⟩
  | some pair =>
    obtain ⟨record, rest⟩ := pair
    obtain ⟨-, rfl⟩ := takeRecord_some taken
    refine ⟨_, _, rfl, List.length_filter_le _ _, fun other record h => ?_⟩
    rw [Std.ExtTreeMap.getElem?_erase] at h
    split_ifs at h
    exact h

def play : List (Link × Call) → Outbox → Noted Outbox
  | [], box => return box
  | (link, call) :: rest, box => do
    let (_, box) ← box.perform link call
    play rest box

structure Turn where
  link : Link
  before : Outbox
  call : Call

namespace Turn

def outcome (turn : Turn) : Except SendError Unit :=
  (turn.before.perform turn.link turn.call).value.1

def after (turn : Turn) : Outbox := (turn.before.perform turn.link turn.call).value.2

def events (turn : Turn) : List Event := (turn.before.perform turn.link turn.call).events

end Turn

def turns : List (Link × Call) → Outbox → List Turn
  | [], _ => []
  | (link, call) :: rest, box =>
    let turn : Turn := ⟨link, box, call⟩
    turn :: turns rest turn.after

def eventsOf (past : List Turn) : List Event := past.flatMap Turn.events

theorem play_events (calls : List (Link × Call)) (box : Outbox) :
    (play calls box).events = eventsOf (turns calls box) := by
  induction calls generalizing box with
  | nil => rfl
  | cons first rest ih =>
    obtain ⟨link, call⟩ := first
    rw [turns, eventsOf, List.flatMap_cons, ← eventsOf, ← ih]
    rfl

/-- What every operation keeps, a run keeps. -/
theorem play_keeps {P : List Turn → Outbox → Prop}
    (keeps : ∀ past turn, P past turn.before → P (past ++ [turn]) turn.after)
    (calls : List (Link × Call)) {past : List Turn} {box : Outbox} (h : P past box) :
    P (past ++ turns calls box) (play calls box).value := by
  induction calls generalizing past box with
  | nil => simpa [turns, play] using h
  | cons first rest ih =>
    obtain ⟨link, call⟩ := first
    have onward := ih (keeps past ⟨link, box, call⟩ h)
    rw [List.append_assoc] at onward
    exact onward

theorem play_invariant {P : Outbox → Prop}
    (keeps : ∀ box link call, P box → P (box.perform link call).value.2)
    (calls : List (Link × Call)) {box : Outbox} (h : P box) : P (play calls box).value :=
  @play_keeps (fun _ => P) (fun _ turn => keeps turn.before turn.link turn.call) calls [] box h

section Estimate

variable {link : Link} {box next : Outbox} {outcome : Except SendError Unit} {events : List Event}

def estimate (box : Outbox) : Nat :=
  messageHeaderBits box.nextId Time.last box.echoed +
    (box.frames.map fun frame => frame.close.bitCount).sum

theorem pendingMessage_estimate (link : Link) (box : Outbox) :
    (box.pendingMessage link).estimate = box.estimate := by
  simp only [Message.estimate, estimate, pendingMessage, List.map_reverse, List.sum_reverse,
    List.map_map]
  rfl

theorem bitLimit_le (box : Outbox) : box.bitLimit ≤ 8 * box.sizeLimit := Nat.min_le_left _ _

theorem bitLimit_lt (box : Outbox) : box.bitLimit < UInt64.size :=
  Nat.lt_of_le_of_lt (Nat.min_le_right _ _) (by decide)

namespace Flushed

variable (h : Flushed link box outcome events next)
include h

/-- Sent or dropped, the message is no longer there. -/
theorem frames : next.frames = [] := by
  cases h with
  | idle empty => exact empty
  | _ => rfl

theorem toEcho : next.toEcho = box.toEcho := by
  cases h <;> rfl

theorem bitLimit : next.bitLimit = box.bitLimit := by
  cases h <;> rfl

theorem pendingBits_le : next.pendingBits ≤ box.pendingBits := by
  cases h with
  | idle => exact Nat.le_refl _
  | _ => exact Nat.zero_le _

/-- The next number may take a group more. -/
theorem freshBits_le : next.freshBits ≤ box.freshBits + 8 := by
  cases h with
  | sent =>
    have succ : Varint.size box.nextId.next.toNat ≤ Varint.size box.nextId.toNat + 8 := by
      unfold MessageId.next
      split_ifs with room
      · have number : (box.nextId + 1).toNat = box.nextId.toNat + 1 := by
          rw [UInt64.toNat_add]
          exact Nat.mod_eq_of_lt room
        rw [number]
        exact Varint.size_succ_le _
      · exact Nat.le_add_right _ _
    simp only [freshBits, messageHeaderBits, recordSent, forgetSurplus, emptied]
    omega
  | _ => exact Nat.le_add_right _ _

end Flushed

theorem pushFrame_of_empty (empty : box.frames = []) (time : Time) (center : Option Zone) :
    box.pushFrame time center = { box with
      echoed := box.toEcho
      pendingBits := box.freshBits + frameHeaderBits time center
      frames := [{ time, center }] } := by
  simp [pushFrame, empty]

theorem pushFrame_of_filled (filled : box.frames ≠ []) (time : Time) (center : Option Zone) :
    box.pushFrame time center = { box with
      pendingBits := box.pendingBits + frameHeaderBits time center
      frames := { time, center } :: box.frames } := by
  simp [pushFrame, filled]

theorem estimate_pushFrame (filled : box.frames ≠ []) (time : Time) (center : Option Zone) :
    (box.pushFrame time center).estimate = box.estimate + frameHeaderBits time center := by
  simp only [pushFrame_of_filled filled, estimate, OpenFrame.close, List.reverse_nil,
    Frame.bitCount, sumBits_eq, List.map_cons, List.map_nil, List.sum_cons, List.sum_nil]
  omega

theorem estimate_appendState (opened : box.frames ≠ []) (state : Delta) :
    (box.appendState state).estimate = box.estimate + state.bitCount := by
  obtain ⟨frame, rest, hf⟩ := List.exists_cons_of_ne_nil opened
  simp only [appendState, estimate, hf, List.modifyHead_cons, OpenFrame.close, Frame.bitCount,
    sumBits_eq, List.map_cons, List.sum_cons, List.reverse_cons, List.map_append, List.sum_append,
    List.map_nil, List.sum_nil]
  omega

theorem messageHeaderBits_le (id : MessageId) {echoed : List MessageId}
    (few : echoed.length ≤ maxEchoed) : messageHeaderBits id Time.last echoed ≤ 5408 := by
  have number := Varint.size_word_le id
  have stamp : Varint.size Time.last.toNat ≤ 80 := Varint.size_word_le _
  have none : Varint.size 0 = 8 := Varint.size_of_lt (by decide)
  have acks := echoBits_le echoed
  rw [messageHeaderBits_echoes _ _ (Nat.lt_of_le_of_lt few (by decide))]
  simp only [messageHeaderBits, countFieldBits, sumBits_eq, List.length_nil, List.map_nil,
    List.sum_nil, none]
  unfold maxEchoed at few
  omega

theorem freshBits_le (few : box.toEcho.length ≤ maxEchoed) : box.freshBits ≤ 5408 :=
  messageHeaderBits_le box.nextId few

end Estimate

/-- The size estimate is what the message being filled is expected to take. -/
structure Measured (box : Outbox) : Prop where
  exact : box.frames ≠ [] → box.pendingBits = box.estimate
  small : box.pendingBits < UInt64.size + 8
  echoes : box.toEcho.length ≤ maxEchoed

namespace Measured

variable {link : Link} {box next : Outbox} {outcome : Except SendError Unit} {events : List Event}

theorem of_new (sizeLimit capacity : Nat) : Measured (new sizeLimit capacity) :=
  ⟨fun filled => absurd rfl filled, Nat.succ_pos _, Nat.zero_le _⟩

theorem flushed (h : Measured box) (flushed : Flushed link box outcome events next) :
    Measured next :=
  ⟨fun filled => absurd flushed.frames filled,
    Nat.lt_of_le_of_lt flushed.pendingBits_le h.small, flushed.toEcho ▸ h.echoes⟩

/-- A frame that opens a message, or fits behind those in it. -/
theorem push (h : Measured box) {time : Time} {center : Option Zone}
    (fits : box.frames ≠ [] → box.pendingBits + frameHeaderBits time center ≤ box.bitLimit) :
    Measured (box.pushFrame time center) := by
  by_cases filled : box.frames = []
  · have fresh := freshBits_le h.echoes
    have header := frameHeaderBits_le time center
    refine ⟨fun _ => ?_, ?_, ?_⟩
    · simp only [pushFrame_of_empty filled, estimate, OpenFrame.close, List.reverse_nil,
        Frame.bitCount, sumBits_eq, List.map_cons, List.map_nil, List.sum_cons, List.sum_nil,
        freshBits]
      omega
    · rw [pushFrame_of_empty filled]
      simp only [UInt64.size]
      omega
    · rw [pushFrame_of_empty filled]
      exact h.echoes
  · have limit := box.bitLimit_lt
    have fits := fits filled
    refine ⟨fun _ => ?_, ?_, ?_⟩
    · rw [estimate_pushFrame filled, ← h.exact filled, pushFrame_of_filled filled]
    · rw [pushFrame_of_filled filled]
      simp only
      omega
    · rw [pushFrame_of_filled filled]
      exact h.echoes

theorem append (h : Measured box) (opened : box.frames ≠ []) {state : Delta}
    (fits : box.pendingBits + state.bitCount ≤ box.bitLimit + 8) :
    Measured (box.appendState state) := by
  have limit := box.bitLimit_lt
  refine ⟨fun _ => ?_, ?_, h.echoes⟩
  · rw [estimate_appendState opened, ← h.exact opened]
    rfl
  · simp only [appendState]
    omega

/-- A state that opens a message behind one that was sent. -/
theorem split (h : Measured box) (flushed : Flushed link box outcome events next) {time : Time}
    {center : Option Zone} {state : Delta}
    (fits : box.freshBits + frameHeaderBits time center + state.bitCount ≤ box.bitLimit) :
    Measured ((next.pushFrame time center).appendState state) := by
  have fresh := flushed.freshBits_le
  have limit := flushed.bitLimit
  refine ((h.flushed flushed).push fun filled => absurd flushed.frames filled).append
    (pushFrame_frames _ _ _) ?_
  rw [pushFrame_of_empty flushed.frames]
  simp only [Outbox.bitLimit] at fits limit ⊢
  omega

theorem started (h : Measured box) {time : Time} {center : Option Zone}
    (started : Started link box time center outcome events next) : Measured next := by
  cases started with
  | pushed fits => exact h.push fits
  | failed flushed => exact h.flushed flushed
  | continued _ flushed =>
    exact (h.flushed flushed).push fun filled => absurd flushed.frames filled

theorem added (h : Measured box) {state : Delta}
    (added : Added link box state outcome events next) : Measured next := by
  cases added with
  | unopened | oversized => exact h
  | appended opened fits => exact h.append opened (Nat.le_add_right_of_le fits)
  | failed flushed => exact h.flushed flushed
  | continued _ fits flushed => exact h.split flushed fits

theorem perform (h : Measured box) (link : Link) (call : Call) :
    Measured (box.perform link call).value.2 := by
  cases call with
  | startFrame time center => exact h.started (box.startFrame_started link time center)
  | addState state => exact h.added (box.addState_added link state)
  | flush => exact h.flushed (box.flush_flushed link)
  | takeRecord id =>
    obtain ⟨outstanding, toEcho, rest, fewer, -⟩ := box.takeRecord_eq id
    rw [Outbox.perform, rest]
    exact ⟨h.exact, h.small, Nat.le_trans fewer h.echoes⟩
  | echo id =>
    refine ⟨h.exact, h.small, ?_⟩
    simp only [Outbox.perform, Outbox.echo, Noted.value_pure, List.length_drop]
    omega
  | setSizeLimit bytes => exact ⟨h.exact, h.small, h.echoes⟩

end Measured

theorem play_measured (sizeLimit capacity : Nat) (calls : List (Link × Call)) :
    Measured (play calls (new sizeLimit capacity)).value :=
  play_invariant (fun _ link call h => h.perform link call) calls
    (Measured.of_new sizeLimit capacity)

def arrival (id : NetId) : Delta :=
  { netId := id, version := 1, entity := some id.toUInt64, zoneId := some 1,
    position := some .zero }

/-- Two states, of which only one fits into a message of 53 bytes. -/
def crowded : List (Link × Call) :=
  [.startFrame 1 none, .addState (arrival 1), .addState (arrival 2)].map fun call =>
    (Line.link {}, call)

end AreaReplication.Outbox
