import AreaReplication.Proofs.OutboxRun

/-!
# States that are refused as too large

A state that does not fit into the message being filled is checked against a new message that echoes
all that is to be echoed then. A state that is too large for any message is always refused, but so
is one that only the echoes leave no room for.
-/
namespace AreaReplication.Outbox

/-- What a state comes to in a message that holds nothing else and echoes nothing. -/
def aloneBits (id : MessageId) (time : Time) (center : Option Zone) (state : Delta) : Nat :=
  messageHeaderBits id Time.last [] + frameHeaderBits time center + state.bitCount

def Refuses (box : Outbox) (link : Link) (state : Delta) : Prop :=
  ∃ id needed limit, (box.addState link state).value.1 = .error (.stateTooLarge id needed limit)

section Refuses

variable {link : Link} {box : Outbox} {frame : OpenFrame} {rest : List OpenFrame} {state : Delta}

/-- Neither the message being filled has room for the state nor a new one. -/
theorem refuses_iff (opened : box.frames = frame :: rest) : box.Refuses link state ↔
    box.bitLimit < box.pendingBits + state.bitCount ∧
      box.bitLimit < box.freshBits + frameHeaderBits frame.time frame.center + state.bitCount := by
  have flushed := box.flush_flushed link
  unfold Refuses addState
  rw [opened]
  simp only
  split_ifs with full large
  · exact iff_of_true ⟨_, _, _, rfl⟩ ⟨full, large⟩
  · refine iff_of_false ?_ fun h => large h.2
    generalize hb : box.flush link = result at flushed
    obtain ⟨⟨outcome, next⟩, events⟩ := result
    rw [box.flushThenPush_eq link frame.time frame.center hb]
    rintro ⟨id, needed, limit, failed⟩
    cases outcome with
    | ok => cases failed
    | error error =>
      obtain rfl : error = .stateTooLarge id needed limit := by simpa using failed
      cases flushed
  · refine iff_of_false ?_ fun h => full h.1
    rintro ⟨id, needed, limit, failed⟩
    cases failed

/-- The message being filled has at least its header and that of the current frame. -/
theorem Measured.aloneBits_le (measured : Measured box) (opened : box.frames = frame :: rest) :
    aloneBits box.nextId frame.time frame.center state ≤ box.pendingBits + state.bitCount := by
  have exact := measured.exact (by simp [opened])
  have header := (le_messageHeaderBits box.nextId box.echoed).1
  have current : frameHeaderBits frame.time frame.center ≤ frame.close.bitCount :=
    Nat.le_add_right _ _
  rw [estimate, opened, List.map_cons, List.sum_cons] at exact
  unfold aloneBits
  omega

/-- A new message has room for a state but for what it echoes. -/
theorem Measured.freshBits_eq (measured : Measured box) :
    box.freshBits + frameHeaderBits frame.time frame.center + state.bitCount =
      aloneBits box.nextId frame.time frame.center state + echoBits box.toEcho := by
  have few : box.toEcho.length < Varint.groupBase :=
    Nat.lt_of_le_of_lt measured.echoes (by decide)
  rw [freshBits, messageHeaderBits_echoes _ _ few, aloneBits]
  omega

theorem Measured.refuses (measured : Measured box) (opened : box.frames = frame :: rest)
    (large : 8 * box.sizeLimit < aloneBits box.nextId frame.time frame.center state) :
    box.Refuses link state := by
  have bound := box.bitLimit_le
  have held : aloneBits box.nextId frame.time frame.center state ≤
      box.pendingBits + state.bitCount := measured.aloneBits_le opened
  rw [refuses_iff opened, measured.freshBits_eq]
  omega

theorem Measured.exceeds (measured : Measured box) (opened : box.frames = frame :: rest)
    (refused : box.Refuses link state) :
    8 * box.sizeLimit < aloneBits box.nextId frame.time frame.center state +
      echoBits box.toEcho := by
  obtain ⟨-, large⟩ := (refuses_iff opened).1 refused
  -- The limit in bits stops at a 64-bit count, but no state comes near that.
  have fresh := freshBits_le measured.echoes
  have header := frameHeaderBits_le frame.time frame.center
  have own := state.bitCount_le
  rw [← measured.freshBits_eq]
  simp only [bitLimit, UInt64.size] at large
  omega

end Refuses

/-- In every run, a state that is too large by itself is refused, and one that is refused is too
large together with what is to be echoed, which is at most 640 bytes. -/
theorem refused_states_exceed_limit (sizeLimit capacity : Nat) (calls : List (Link × Call))
    (link : Link) {frame : OpenFrame} {rest : List OpenFrame} (state : Delta)
    (opened : (play calls (new sizeLimit capacity)).value.frames = frame :: rest) :
    let box := (play calls (new sizeLimit capacity)).value
    let alone := aloneBits box.nextId frame.time frame.center state
    (8 * box.sizeLimit < alone → box.Refuses link state) ∧
      (box.Refuses link state → 8 * box.sizeLimit < alone + echoBits box.toEcho) ∧
      echoBits box.toEcho ≤ 8 * 640 := by
  intro box alone
  have measured : Measured box := play_measured sizeLimit capacity calls
  refine ⟨measured.refuses opened, measured.exceeds opened, ?_⟩
  exact Nat.le_trans (echoBits_le _) (Nat.mul_le_mul_left 80 measured.echoes)

/-- The first message is acknowledged, so the second one, whose frame is started, echoes it. -/
def answered : List (Link × Call) :=
  [.startFrame 1 none, .flush, .takeRecord 0, .echo 0, .startFrame 2 none].map fun call =>
    (Line.link {}, call)

/-- A state that also tells of a turn does not fit even without the echo. -/
theorem refused_states_exceed_limit_turned :
    let box := (play answered (new 53 4)).value
    let state := { arrival 2 with rotation := some .identity }
    box.frames = [{ time := 2, center := none }] ∧
      8 * box.sizeLimit < aloneBits box.nextId 2 none state ∧ box.Refuses (Line.link {}) state := by
  intro box state
  have opened : box.frames = [{ time := 2, center := none }] := by decide +kernel
  have large : 8 * box.sizeLimit < aloneBits box.nextId 2 none state := by decide +kernel
  have rule := refused_states_exceed_limit 53 4 answered (Line.link {}) state opened
  exact ⟨opened, large, rule.1 large⟩

/-- At a limit of 53 bytes, which are 424 bits, a state that takes 423 by itself is refused behind
the echo. -/
theorem fitting_state_refused :
    let box := (play answered (new 53 4)).value
    box.frames = [{ time := 2, center := none }] ∧ box.Refuses (Line.link {}) (arrival 2) ∧
      aloneBits box.nextId 2 none (arrival 2) ≤ 8 * box.sizeLimit :=
  ⟨by decide +kernel, ⟨2, 431, 424, by decide +kernel⟩, by decide +kernel⟩

end AreaReplication.Outbox
