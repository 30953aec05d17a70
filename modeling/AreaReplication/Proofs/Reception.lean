import AreaReplication.Proofs.MessageSize

/-!
# What a default receiver takes

A sender goes by estimated bits, a receiver by bytes and counts. Every frame and every state has its
share of the estimate, so a bound on the estimate bounds them all. A message without states may be
above the sender's limit; it is then a single frame behind a header of bounded length.
-/
namespace AreaReplication

/-- The receiver takes every message that is estimated at `bits` or less and echoes no more
acknowledgments than a sender puts into a header. -/
structure Limits.Cover (limits : Limits) (bits : Nat) : Prop where
  bytes : bits ≤ 8 * limits.messageBytes
  frames : bits ≤ 49 * limits.framesPerMessage
  states : bits ≤ 22 * limits.statesPerFrame
  acks : maxEchoed ≤ limits.acksPerHeader

theorem Limits.Cover.decode {limits : Limits} {bits : Nat} (h : limits.Cover bits)
    {message : Message} {packet : Packet} (estimate : message.estimate ≤ bits)
    (echoed : message.echoed.length ≤ maxEchoed) (encoded : message.encode = .ok packet) :
    Message.decode limits packet = .ok message := by
  obtain ⟨bytes, frames, states, acks⟩ := h
  have small := (Message.encode_eq_ok_iff.1 encoded).1
  have admits : limits.Admits message := by
    intro count hc
    refine ⟨small count hc, ?_⟩
    simp only [Message.counts, List.mem_cons, List.mem_map] at hc
    rcases hc with rfl | rfl | ⟨frame, held, rfl⟩
    · exact Nat.le_trans echoed acks
    · have share := message.le_estimate_frames
      simp only [Limits.get]
      omega
    · have share := Message.le_estimate_states held
      simp only [Limits.get]
      omega
  refine Message.decode_encode admits encoded ?_
  have short := Message.length_form_le small
  rw [Message.length_packet encoded, Bits.byteCount]
  omega

namespace Outbox

/-- What the header and the first frame of a message come to at most. -/
def openingBits : Nat := 5649

/-- An outbox with a size limit that allows for `bits` bits, and no more in the message being
filled. -/
structure Moderate (bits : Nat) (box : Outbox) : Prop extends Measured box where
  opening : openingBits ≤ bits
  limit : 8 * box.sizeLimit + 8 ≤ bits
  header : box.echoed.length ≤ maxEchoed
  estimate : box.estimate ≤ bits

namespace Moderate

variable {bits : Nat} {link : Link} {box next : Outbox} {outcome : Except SendError Unit}
  {events : List Event}

theorem of_new {sizeLimit : Nat} (capacity : Nat) (opening : openingBits ≤ bits)
    (limit : 8 * sizeLimit + 8 ≤ bits) : Moderate bits (new sizeLimit capacity) where
  toMeasured := .of_new sizeLimit capacity
  opening := opening
  limit := limit
  header := Nat.zero_le _
  estimate := by
    refine Nat.le_trans (messageHeaderBits_le 0 (Nat.zero_le _)) ?_
    exact Nat.le_trans (by decide) opening

theorem flushed (h : Moderate bits box) (flushed : Flushed link box outcome events next) :
    Moderate bits next := by
  have measured := h.toMeasured.flushed flushed
  have sizeLimit : next.sizeLimit = box.sizeLimit := by cases flushed <;> rfl
  have header : next.echoed.length ≤ maxEchoed := by
    cases flushed with
    | idle => exact h.header
    | _ => exact Nat.zero_le _
  refine ⟨measured, h.opening, sizeLimit ▸ h.limit, header, ?_⟩
  have empty : next.estimate = messageHeaderBits next.nextId Time.last next.echoed := by
    simp [Outbox.estimate, flushed.frames]
  rw [empty]
  exact Nat.le_trans (messageHeaderBits_le _ header) (Nat.le_trans (by decide) h.opening)

/-- A frame opens a message, or fits behind those in it. -/
theorem push (h : Moderate bits box) {time : Time} {center : Option Zone}
    (fits : box.frames ≠ [] → box.pendingBits + frameHeaderBits time center ≤ box.bitLimit) :
    Moderate bits (box.pushFrame time center) := by
  have measured := h.toMeasured.push fits
  have exact := measured.exact (pushFrame_frames _ _ _)
  by_cases filled : box.frames = []
  · have fresh := freshBits_le h.echoes
    have first := frameHeaderBits_le time center
    have opening := h.opening
    rw [pushFrame_of_empty filled] at measured exact ⊢
    refine ⟨measured, h.opening, h.limit, h.echoes, ?_⟩
    rw [← exact]
    unfold openingBits at opening
    simp only
    omega
  · have fits := fits filled
    have bound := box.bitLimit_le
    have limit := h.limit
    rw [pushFrame_of_filled filled] at measured exact ⊢
    refine ⟨measured, h.opening, h.limit, h.header, ?_⟩
    rw [← exact]
    simp only
    omega

theorem append (h : Moderate bits box) (opened : box.frames ≠ []) {state : Delta}
    (fits : box.pendingBits + state.bitCount ≤ box.bitLimit + 8) :
    Moderate bits (box.appendState state) := by
  have bound := box.bitLimit_le
  have limit := h.limit
  refine ⟨h.toMeasured.append opened fits, h.opening, h.limit, h.header, ?_⟩
  rw [estimate_appendState opened, ← h.exact opened]
  omega

theorem started (h : Moderate bits box) {time : Time} {center : Option Zone}
    (started : Started link box time center outcome events next) : Moderate bits next := by
  cases started with
  | pushed fits => exact h.push fits
  | failed flushed => exact h.flushed flushed
  | continued _ flushed => exact (h.flushed flushed).push fun filled => absurd flushed.frames filled

theorem added (h : Moderate bits box) {state : Delta}
    (added : Added link box state outcome events next) : Moderate bits next := by
  cases added with
  | unopened | oversized => exact h
  | appended opened fits => exact h.append opened (Nat.le_add_right_of_le fits)
  | failed flushed => exact h.flushed flushed
  | @continued frame _ _ next _ fits flushed =>
    have pushed : Moderate bits (next.pushFrame frame.time frame.center) :=
      (h.flushed flushed).push fun filled => absurd flushed.frames filled
    refine pushed.append (pushFrame_frames _ _ _) ?_
    have fresh := flushed.freshBits_le
    have limit := flushed.bitLimit
    rw [pushFrame_of_empty flushed.frames]
    simp only [Outbox.bitLimit] at fits limit ⊢
    omega

theorem perform (h : Moderate bits box) (link : Link) (call : Call)
    (small : ∀ bytes, call = .setSizeLimit bytes → 8 * bytes + 8 ≤ bits) :
    Moderate bits (box.perform link call).value.2 := by
  have measured := h.toMeasured.perform link call
  cases call with
  | startFrame time center => exact h.started (box.startFrame_started link time center)
  | addState state => exact h.added (box.addState_added link state)
  | flush => exact h.flushed (box.flush_flushed link)
  | takeRecord id =>
    obtain ⟨outstanding, toEcho, rest, -⟩ := box.takeRecord_eq id
    rw [Outbox.perform, rest] at measured ⊢
    exact ⟨measured, h.opening, h.limit, h.header, h.estimate⟩
  | echo id => exact ⟨measured, h.opening, h.limit, h.header, h.estimate⟩
  | setSizeLimit bytes => exact ⟨measured, h.opening, small bytes rfl, h.header, h.estimate⟩

theorem play {calls : List (Link × Call)} (h : Moderate bits box)
    (small : ∀ step ∈ calls, ∀ bytes, step.2 = .setSizeLimit bytes → 8 * bytes + 8 ≤ bits) :
    Moderate bits (play calls box).value := by
  induction calls generalizing box with
  | nil => exact h
  | cons first rest ih =>
    have onward := h.perform first.1 first.2 (small first List.mem_cons_self)
    exact ih onward fun step hs => small step (List.mem_cons_of_mem _ hs)

/-- Whatever is handed over is read by a receiver whose limits cover it. -/
theorem decode {turn : Turn} (h : Moderate bits turn.before) {limits : Limits}
    (cover : limits.Cover bits) {message : Message} {packet : Packet}
    (handed : turn.Hands message packet) : Message.decode limits packet = .ok message := by
  obtain ⟨rfl, encoded⟩ := handed.pending
  refine cover.decode ?_ h.header encoded
  rw [pendingMessage_estimate]
  exact h.estimate

end Moderate

/-- In every run with a size limit of at most 1500 bytes at all times, a receiver with the default
limits reads whatever the next operation hands to the transport. -/
theorem default_receiver_reads (sizeLimit capacity : Nat) (calls : List (Link × Call)) (link : Link)
    (call : Call) {message : Message} {packet : Packet} (initial : sizeLimit ≤ 1500)
    (later : ∀ step ∈ calls, ∀ bytes, step.2 = .setSizeLimit bytes → bytes ≤ 1500)
    (handed : Turn.Hands ⟨link, (play calls (new sizeLimit capacity)).value, call⟩ message packet) :
    Message.decode {} packet = .ok message := by
  have cover : ({} : Limits).Cover 12008 := ⟨by decide, by decide, by decide, by decide⟩
  have start : Moderate 12008 (new sizeLimit capacity) := .of_new capacity (by decide) (by omega)
  refine (start.play fun step hs bytes same => ?_).decode cover handed
  have := later step hs bytes same
  omega

/-- A message of two frames; then the limit is lowered to a single byte. -/
def overtaken : List (Link × Call) :=
  [.startFrame 1 none, .startFrame 2 (some ⟨0, -1, 300⟩), .addState (arrival 1),
    .setSizeLimit 1].map fun call => (Line.link {}, call)

/-- The next frame does not fit, and the transport refuses the message before it. -/
def overtakenRefusal : Turn where
  link := Line.link { failure := some "down" }
  before := (play overtaken (new 1500 4)).value
  call := .startFrame 3 none

theorem default_receiver_reads_overtaken : ∃ message packet,
    overtakenRefusal.Hands message packet ∧ overtakenRefusal.before.sizeLimit < packet.length ∧
      message.frames.length = 2 ∧ Message.decode {} packet = .ok message := by
  have small : ∀ count ∈ (overtakenRefusal.before.pendingMessage overtakenRefusal.link).counts,
      count.2 < Message.countBound := by decide +kernel
  have failed : overtakenRefusal.outcome =
      .error (.send overtakenRefusal.before.nextId (.failed "down")) := by decide +kernel
  have handed := Turn.Hands.refused (Message.encode_eq_ok_iff.2 ⟨small, rfl⟩) failed
  have later : ∀ step ∈ overtaken, ∀ bytes, step.2 = .setSizeLimit bytes → bytes ≤ 1500 := by
    simp [overtaken]
  have read := default_receiver_reads 1500 4 overtaken _ _ Nat.le.refl later handed
  exact ⟨_, _, handed, by decide +kernel, by decide +kernel, read⟩

end Outbox

end AreaReplication
