import AreaReplication.Proofs.EchoSafety
import AreaReplication.Proofs.IdReuse

/-!
# Acknowledgments are used up once

A message is recorded when it is sent and its record goes for good, by an acknowledgment or because
newer ones push it out. Only the acknowledgment that uses the record up makes the message one to
echo, so an echo that was given up does not come back either. Any acknowledgments may be posted.
-/
namespace AreaReplication

namespace Outbox

/-- `next` comes after `box`: what it records or echoes and `box` does not has come up since. -/
structure Later (box next : Outbox) : Prop where
  number : box.nextId ≤ next.nextId
  recorded : ∀ id ∈ next.outstanding, id ∈ box.outstanding ∨ box.nextId ≤ id
  echoed : ∀ id ∈ next.toEcho, id ∈ box.toEcho ∨ id ∈ box.outstanding ∨ box.nextId ≤ id

/-- The message was sent and is no longer recorded. -/
def Gone (id : MessageId) (box : Outbox) : Prop := id < box.nextId ∧ id ∉ box.outstanding

namespace Later

variable {a b c : Outbox}

theorem refl (box : Outbox) : Later box box :=
  ⟨UInt64.le_rfl, fun _ h => .inl h, fun _ h => .inl h⟩

theorem trans (h : Later a b) (k : Later b c) : Later a c := by
  refine ⟨UInt64.le_trans h.number k.number, fun id hid => ?_, fun id hid => ?_⟩
  · rcases k.recorded id hid with hb | hb
    · exact h.recorded id hb
    · exact .inr (UInt64.le_trans h.number hb)
  · rcases k.echoed id hid with hb | hb | hb
    · exact h.echoed id hb
    · exact .inr (h.recorded id hb)
    · exact .inr (.inr (UInt64.le_trans h.number hb))

theorem gone (h : Later a b) {id : MessageId} (gone : Gone id a) : Gone id b := by
  refine ⟨UInt64.lt_of_lt_of_le gone.1 h.number, fun held => ?_⟩
  rcases h.recorded id held with held | new
  · exact gone.2 held
  · exact UInt64.lt_irrefl _ (UInt64.lt_of_lt_of_le gone.1 new)

theorem not_echoed (h : Later a b) {id : MessageId} (gone : Gone id a) (dropped : id ∉ a.toEcho) :
    id ∉ b.toEcho := by
  intro echoed
  rcases h.echoed id echoed with echoed | held | new
  · exact dropped echoed
  · exact gone.2 held
  · exact UInt64.lt_irrefl _ (UInt64.lt_of_lt_of_le gone.1 new)

end Later

theorem nextId_le_next (id : MessageId) : id ≤ id.next := by
  unfold MessageId.next
  split_ifs with room
  · have number : (id + 1).toNat = id.toNat + 1 := by
      rw [UInt64.toNat_add]
      exact Nat.mod_eq_of_lt room
    rw [UInt64.le_iff_toNat_le, number]
    exact Nat.le_succ _
  · exact UInt64.le_rfl

theorem mem_outstanding_iff {box : Outbox} {id : MessageId} :
    id ∈ box.outstanding ↔ ∃ record, box.outstanding[id]? = some record := by
  rw [← Std.ExtTreeMap.isSome_getElem?_iff_mem, Option.isSome_iff_exists]

theorem mem_forgetSurplus {box : Outbox} {id : MessageId}
    (h : id ∈ box.forgetSurplus.outstanding) : id ∈ box.outstanding := by
  obtain ⟨record, hr⟩ := mem_outstanding_iff.1 h
  exact mem_outstanding_iff.2 ⟨record, forgetSurplus_outstanding hr⟩

/-- What is recorded once a message has been sent was recorded before or is the message. -/
theorem mem_recordSent {box : Outbox} {link : Link} {bytes : Nat} {id : MessageId}
    (h : id ∈ (box.recordSent (box.pendingMessage link) bytes).forgetSurplus.outstanding) :
    id ∈ box.outstanding ∨ id = box.nextId := by
  have inserted := mem_forgetSurplus h
  simp only [recordSent, Std.ExtTreeMap.mem_insert, Std.LawfulEqCmp.compare_eq_iff_eq] at inserted
  exact inserted.symm.imp_right Eq.symm

theorem Step.later {link : Link} {box next : Outbox} {events : List Event}
    (step : Step link box events next) : Later box next := by
  cases step with
  | remark => exact .refl box
  | resize => exact ⟨UInt64.le_rfl, fun _ h => .inl h, fun _ h => .inl h⟩
  | send =>
    refine ⟨nextId_le_next _, fun id held => ?_, fun _ h => .inl h⟩
    refine (mem_recordSent held).imp_right ?_
    rintro rfl
    exact UInt64.le_rfl
  | drop => exact ⟨UInt64.le_rfl, fun _ h => .inl h, fun _ h => .inl h⟩
  | push time center =>
    refine ⟨?_, fun id held => .inl ?_, fun id echoed => .inl ?_⟩
    · rw [pushFrame_nextId]
      exact UInt64.le_rfl
    · rwa [pushFrame_outstanding] at held
    · rwa [pushFrame_toEcho] at echoed

/-- The records and the echoes of an outbox that holds up to `capacity` records. -/
structure Settling (capacity : Nat) (box : Outbox) : Prop where
  recorded_lt : ∀ id ∈ box.outstanding, id < box.nextId
  echoed_lt : ∀ id ∈ box.toEcho, id < box.nextId
  apart : ∀ id ∈ box.toEcho, id ∉ box.outstanding
  echoes : box.toEcho.length ≤ maxEchoed
  room : box.capacity = capacity
  records : box.outstanding.size ≤ capacity

namespace Settling

variable {capacity : Nat} {box next : Outbox}

theorem of_new (sizeLimit capacity : Nat) :
    Settling (max capacity 1) (new sizeLimit capacity) := by
  constructor <;> simp [new]

/-- An outbox with the same records and echoes. -/
theorem same (h : Settling capacity box) (number : next.nextId = box.nextId)
    (recorded : next.outstanding = box.outstanding) (echoed : next.toEcho = box.toEcho)
    (room : next.capacity = box.capacity) : Settling capacity next := by
  refine ⟨?_, ?_, ?_, ?_, room.trans h.room, ?_⟩
  · rw [recorded, number]
    exact h.recorded_lt
  · rw [echoed, number]
    exact h.echoed_lt
  · rw [echoed, recorded]
    exact h.apart
  · rw [echoed]
    exact h.echoes
  · rw [recorded]
    exact h.records

/-- One record too many is forgotten at once. -/
theorem forgetSurplus_size (room : box.capacity = capacity)
    (records : box.outstanding.size ≤ capacity + 1) :
    box.forgetSurplus.outstanding.size ≤ capacity := by
  unfold forgetSurplus surplus?
  split_ifs with full
  · cases least : box.outstanding.minKey? with
    | none =>
      rw [Std.ExtTreeMap.minKey?_eq_none_iff] at least
      simp [least] at full
    | some id =>
      have held : id ∈ box.outstanding :=
        (Std.ExtTreeMap.minKey?_eq_some_iff_mem_and_forall.1 least).1
      rw [Option.elim_some, Std.ExtTreeMap.size_erase, Std.ExtTreeMap.contains_iff_mem.2 held]
      simp only [if_true]
      omega
  · exact Nat.le_trans (Nat.not_lt.1 full) (Nat.le_of_eq room)

theorem send (h : Settling capacity box) (link : Link) (bytes : Nat)
    (fresh : box.nextId < box.nextId.next) :
    Settling capacity (box.recordSent (box.pendingMessage link) bytes).forgetSurplus where
  recorded_lt id held := by
    rcases mem_recordSent held with held | rfl
    · exact UInt64.lt_trans (h.recorded_lt id held) fresh
    · exact fresh
  echoed_lt id echoed := UInt64.lt_trans (h.echoed_lt id echoed) fresh
  apart id echoed held := by
    rcases mem_recordSent held with held | rfl
    · exact h.apart id echoed held
    · exact UInt64.lt_irrefl _ (h.echoed_lt _ echoed)
  echoes := h.echoes
  room := h.room
  records := by
    refine forgetSurplus_size h.room ?_
    have inserted : (box.recordSent (box.pendingMessage link) bytes).outstanding.size ≤
        box.outstanding.size + 1 := Std.ExtTreeMap.size_insert_le
    have records := h.records
    omega

theorem step (h : Settling capacity box) {link : Link} {events : List Event}
    (fresh : ∀ message packet, .sent message packet ∈ events → box.nextId < box.nextId.next)
    (step : Step link box events next) : Settling capacity next := by
  cases step with
  | remark => exact h
  | resize => exact h.same rfl rfl rfl rfl
  | send => exact h.send link _ (fresh _ _ List.mem_cons_self)
  | drop => exact h.same rfl rfl rfl rfl
  | push time center =>
    exact h.same (pushFrame_nextId _ _ _) (pushFrame_outstanding _ _ _) (pushFrame_toEcho _ _ _)
      (pushFrame_capacity _ _ _)

end Settling

theorem takeRecord_eq_none {box : Outbox} {id : MessageId} :
    box.takeRecord id = none ↔ id ∉ box.outstanding := by
  rw [mem_outstanding_iff, not_exists]
  unfold takeRecord
  cases box.outstanding[id]? <;> simp

/-- `next` is `box` once the record of the message has been used up, whether it is echoed or not. -/
structure Uses (id : MessageId) (box next : Outbox) : Prop where
  held : id ∈ box.outstanding
  number : next.nextId = box.nextId
  room : next.capacity = box.capacity
  carried : next.carried = box.carried
  frames : next.frames = box.frames
  recorded : next.outstanding = box.outstanding.erase id
  echoed : ∀ other ∈ next.toEcho, other = id ∨ other ∈ box.toEcho
  echoes : box.toEcho.length ≤ maxEchoed → next.toEcho.length ≤ maxEchoed

theorem uses_of_taken {box rest : Outbox} {id : MessageId} {record : SentRecord}
    (taken : box.takeRecord id = some (record, rest)) (named : record.id = id)
    (confirmed : Prop) [Decidable confirmed] :
    Uses id box (if confirmed then rest.echo record.id else rest) := by
  obtain ⟨held, rfl⟩ := takeRecord_some taken
  have held := mem_outstanding_iff.2 ⟨record, held⟩
  split_ifs
  · refine ⟨held, rfl, rfl, rfl, rfl, rfl, fun other ho => ?_, fun _ => ?_⟩
    · exact (mem_echo ho).imp (fun he => he.trans named) List.mem_of_mem_filter
    · simp only [echo, List.length_drop]
      omega
  · refine ⟨held, rfl, rfl, rfl, rfl, rfl, fun other ho => ?_, fun few => ?_⟩
    · exact .inr (List.mem_of_mem_filter ho)
    · exact Nat.le_trans (List.length_filter_le _ _) few

namespace Uses

variable {capacity : Nat} {box next : Outbox} {id : MessageId} (h : Uses id box next)
include h

theorem mem_outstanding {other : MessageId} :
    other ∈ next.outstanding ↔ other ≠ id ∧ other ∈ box.outstanding := by
  rw [h.recorded, Std.ExtTreeMap.mem_erase, ne_eq, Std.LawfulEqCmp.compare_eq_iff_eq, eq_comm]

theorem later : Later box next := by
  refine ⟨h.number ▸ UInt64.le_rfl, fun other ho => .inl (h.mem_outstanding.1 ho).2, ?_⟩
  intro other ho
  rcases h.echoed other ho with rfl | ho
  · exact .inr (.inl h.held)
  · exact .inl ho

theorem settling (settling : Settling capacity box) : Settling capacity next where
  recorded_lt other ho := h.number ▸ settling.recorded_lt other (h.mem_outstanding.1 ho).2
  echoed_lt other ho := by
    rw [h.number]
    rcases h.echoed other ho with rfl | ho
    · exact settling.recorded_lt _ h.held
    · exact settling.echoed_lt other ho
  apart other ho held := by
    obtain ⟨ne, held⟩ := h.mem_outstanding.1 held
    rcases h.echoed other ho with rfl | ho
    · exact ne rfl
    · exact settling.apart other ho held
  echoes := h.echoes settling.echoes
  room := h.room.trans settling.room
  records := by
    rw [h.recorded]
    exact Nat.le_trans Std.ExtTreeMap.size_erase_le settling.records

theorem numbered {messages : List Message} (numbered : Numbered messages box) :
    Numbered messages next := by
  refine numbered.same h.number (fun other record hr => ?_) ?_
  · rw [h.recorded, Std.ExtTreeMap.getElem?_erase] at hr
    split_ifs at hr
    exact hr
  · rw [h.carried, buffered, h.frames]
    exact numbered.carried

/-- The record is gone for good. -/
theorem gone (settling : Settling capacity box) : Gone id next := by
  refine ⟨h.number ▸ settling.recorded_lt id h.held, fun held => ?_⟩
  exact (h.mem_outstanding.1 held).1 rfl

end Uses

end Outbox

namespace Numbered

variable {messages : List Message} {box : Outbox}

/-- A record stands under the number of its message. -/
theorem named (h : Numbered messages box) {id : MessageId} {record : SentRecord} {rest : Outbox}
    (taken : box.takeRecord id = some (record, rest)) : record.id = id := by
  obtain ⟨message, -, number, rfl⟩ := h.posted id record (Outbox.takeRecord_some taken).1
  exact number

theorem sent_of_lt (h : Numbered messages box) {id : MessageId} (sent : id < box.nextId) :
    ∃ message ∈ messages, message.id = id := by
  rw [UInt64.lt_iff_toNat_lt, h.next] at sent
  have number : id.toNat ∈ messages.map fun message => message.id.toNat := by
    rw [h.numbered, List.mem_range]
    exact sent
  obtain ⟨message, hm, hid⟩ := List.mem_map.1 number
  exact ⟨message, hm, UInt64.toNat_inj.1 hid⟩

/-- As long as the numbers last, the next one is new. -/
theorem fresh {events es : List Event} (h : Numbered (messagesSent events) box)
    (few : Few (events ++ es)) {message : Message} {packet : Packet}
    (sent : .sent message packet ∈ es) : box.nextId < box.nextId.next := by
  have more : 0 < (messagesSent es).length :=
    List.length_pos_of_mem (mem_messagesSent.2 ⟨packet, sent⟩)
  rw [Few, messagesSent_append, List.length_append] at few
  have room : (messagesSent events).length + 1 < UInt64.size := by omega
  rw [UInt64.lt_iff_toNat_lt, h.next_id room]
  exact Nat.lt_succ_self _

end Numbered

namespace Core

variable {link : Link} {events es : List Event} {core next : Core} {capacity : Nat}

theorem Output.later {now : Time} {acked : List MessageId}
    (step : Output link now acked core es next)
    (named : ∀ id ∈ acked, ∀ record rest, core.box.takeRecord id = some (record, rest) →
      record.id = id) : Outbox.Later core.box next.box := by
  cases step with
  | outbox step => exact step.later
  | @settle id record box posted recorded =>
    exact (Outbox.uses_of_taken recorded (named id posted record box recorded)
      ((core.table.commit record).value.1.settled)).later
  | release | present | reap => exact .refl _
  | queue => exact ⟨UInt64.le_rfl, fun _ h => .inl h, fun _ h => .inl h⟩

theorem Output.settling {now : Time} {acked : List MessageId}
    (step : Output link now acked core es next)
    (numbered : Numbered (messagesSent events) core.box) (few : Few (events ++ es))
    (h : Outbox.Settling capacity core.box) : Outbox.Settling capacity next.box := by
  cases step with
  | outbox step => exact h.step (fun _ _ sent => numbered.fresh few sent) step
  | @settle id record box posted recorded =>
    exact (Outbox.uses_of_taken recorded (numbered.named recorded)
      ((core.table.commit record).value.1.settled)).settling h
  | release | present | reap => exact h
  | queue => exact h.same rfl rfl rfl rfl

end Core

theorem Session.Call.Step.settling {link : Link} {acked : List MessageId} {call : Session.Call}
    {core next : Core} {events es : List Event} {capacity : Nat}
    (step : call.Step link acked core es next)
    (numbered : Numbered (messagesSent events) core.box) (few : Few (events ++ es))
    (h : Outbox.Settling capacity core.box) :
    Outbox.Settling capacity next.box ∧ Outbox.Later core.box next.box := by
  cases call with
  | stateChanged block =>
    have step : Core.Input block.time core es next := step
    rw [step.box]
    exact ⟨h, .refl _⟩
  | endFrame time =>
    have step : Core.Output link time acked core es next := step
    exact ⟨step.settling numbered few h, step.later fun _ _ _ _ taken => numbered.named taken⟩
  | _ =>
    obtain ⟨box, step, rfl⟩ := step
    exact ⟨h.step (fun _ _ sent => numbered.fresh few sent) step, step.later⟩

namespace Intake

structure Stage where
  ack : Ack
  box : Outbox
  table : ReplicaTable

namespace Stage

def after (stage : Stage) : Outbox × ReplicaTable :=
  (settle stage.box stage.table stage.ack.id).value.2

def used? (stage : Stage) : Option MessageId :=
  (stage.box.takeRecord stage.ack.id).map fun taken => taken.1.id

end Stage

def stages : List Ack → Outbox → ReplicaTable → List Stage
  | [], _, _ => []
  | ack :: rest, box, table =>
    let stage : Stage := ⟨ack, box, table⟩
    stage :: stages rest stage.after.1 stage.after.2

def used (stages : List Stage) : List MessageId := stages.filterMap Stage.used?

section Passage

variable {capacity : Nat} {messages : List Message}

/-- An acknowledgment uses up the record of its message, or it changes nothing. -/
theorem Stage.after_cases (stage : Stage) (numbered : Numbered messages stage.box) :
    (stage.ack.id ∉ stage.box.outstanding ∧ stage.used? = none ∧
        stage.after = (stage.box, stage.table)) ∨
      (stage.used? = some stage.ack.id ∧ Outbox.Uses stage.ack.id stage.box stage.after.1) := by
  unfold used? after settle
  cases taken : stage.box.takeRecord stage.ack.id with
  | none => exact .inl ⟨Outbox.takeRecord_eq_none.1 taken, rfl, rfl⟩
  | some pair =>
    obtain ⟨record, rest⟩ := pair
    have named := numbered.named taken
    refine .inr ⟨congrArg some named, ?_⟩
    have uses := Outbox.uses_of_taken taken named
      ((stage.table.commit record).value.1.settled)
    simp only [Noted.value_bind]
    split_ifs with confirmed
    · rw [if_pos confirmed] at uses
      exact uses
    · rw [if_neg confirmed] at uses
      exact uses

structure Passage (capacity : Nat) (messages : List Message) (box : Outbox) (stages : List Stage)
    (last : Outbox) : Prop where
  numbered : Numbered messages last
  settling : Outbox.Settling capacity last
  later : Outbox.Later box last
  between : ∀ stage ∈ stages, Outbox.Settling capacity stage.after.1 ∧
    Outbox.Later box stage.after.1 ∧ Outbox.Later stage.after.1 last
  onward : (stages.map fun stage => stage.after.1).Pairwise Outbox.Later
  once : (used stages).Nodup
  held : ∀ id ∈ used stages, id ∈ box.outstanding ∧ Outbox.Gone id last

/-- The first of several acknowledgments, with what is known of the others. -/
theorem Passage.cons {stage : Stage} {rest : List Stage} {last : Outbox}
    (numbered : Numbered messages stage.box) (settling : Outbox.Settling capacity stage.box)
    (h : Passage capacity messages stage.after.1 rest last) :
    Passage capacity messages stage.box (stage :: rest) last := by
  have first := stage.after_cases numbered
  obtain ⟨settles, later⟩ : Outbox.Settling capacity stage.after.1 ∧
      Outbox.Later stage.box stage.after.1 := by
    rcases first with ⟨-, -, same⟩ | ⟨-, uses⟩
    · rw [same]
      exact ⟨settling, .refl _⟩
    · exact ⟨uses.settling settling, uses.later⟩
  refine ⟨h.numbered, h.settling, later.trans h.later, ?_, ?_, ?_, ?_⟩
  · intro other ho
    rcases List.mem_cons.1 ho with rfl | ho
    · exact ⟨settles, later, h.later⟩
    · obtain ⟨between, since, last⟩ := h.between other ho
      exact ⟨between, later.trans since, last⟩
  · refine List.pairwise_cons.2 ⟨fun next hn => ?_, h.onward⟩
    obtain ⟨other, ho, rfl⟩ := List.mem_map.1 hn
    exact (h.between other ho).2.1
  · rcases first with ⟨-, unused, -⟩ | ⟨taken, uses⟩
    · rw [used, List.filterMap_cons_none unused]
      exact h.once
    · rw [used, List.filterMap_cons_some taken]
      refine List.nodup_cons.2 ⟨fun again => ?_, h.once⟩
      exact (uses.mem_outstanding.1 (h.held _ again).1).1 rfl
  · intro id hid
    rcases first with ⟨-, unused, same⟩ | ⟨taken, uses⟩
    · rw [used, List.filterMap_cons_none unused] at hid
      rw [same] at h
      exact h.held id hid
    · rw [used, List.filterMap_cons_some taken, List.mem_cons] at hid
      rcases hid with rfl | hid
      · exact ⟨uses.held, h.later.gone (uses.gone settling)⟩
      · obtain ⟨held, gone⟩ := h.held id hid
        exact ⟨(uses.mem_outstanding.1 held).2, gone⟩

theorem stages_acks (acks : List Ack) (box : Outbox) (table : ReplicaTable) :
    (stages acks box table).map Stage.ack = acks := by
  induction acks generalizing box table with
  | nil => rfl
  | cons ack rest ih => exact congrArg (ack :: ·) (ih _ _)

theorem stages_last (acks : List Ack) (ping : Ping) (box : Outbox) (table : ReplicaTable) :
    (stages acks box table).foldl (fun _ stage => stage.after) (box, table) =
      (settleAll acks ping box table).value.2.2 := by
  induction acks generalizing ping box table with
  | nil => rfl
  | cons ack rest ih => exact ih (ping.record ack.roundTrip).value _ _

theorem stages_passage (acks : List Ack) (ping : Ping) {box : Outbox} (table : ReplicaTable)
    (numbered : Numbered messages box) (settling : Outbox.Settling capacity box) :
    Passage capacity messages box (stages acks box table)
      (settleAll acks ping box table).value.2.2.1 := by
  induction acks generalizing ping box table with
  | nil => exact ⟨numbered, settling, .refl _, nofun, .nil, .nil, nofun⟩
  | cons ack rest ih =>
    let stage : Stage := ⟨ack, box, table⟩
    obtain ⟨settles, numbers⟩ : Outbox.Settling capacity stage.after.1 ∧
        Numbered messages stage.after.1 := by
      rcases stage.after_cases numbered with ⟨-, -, same⟩ | ⟨-, uses⟩
      · rw [same]
        exact ⟨settling, numbered⟩
      · exact ⟨uses.settling settling, uses.numbered numbered⟩
    have later := ih (ping.record ack.roundTrip).value stage.after.2 numbers settles
    exact later.cons numbered settling

end Passage

end Intake

namespace Session

open AreaReplication.Core

def acked (session : Session) : Session :=
  let worked := (Intake.settleAll session.intake.queue session.intake.ping session.outbox
    session.table).value
  { session with intake := { ping := worked.2.1 }, outbox := worked.2.2.1, table := worked.2.2.2 }

/-- The end of a tick goes on from where the acknowledgments have led. -/
theorem endFrame_acked (link : Link) (session : Session) (time : Time) :
    (session.acked.endFrame link time).value.2.core =
      (session.endFrame link time).value.2.core := by
  simp only [endFrame, acked, Intake.drain, Intake.settleAll, Noted.value_bind, Noted.value_pure]
  generalize Intake.settleAll session.intake.queue session.intake.ping session.outbox session.table
    = drained
  obtain ⟨⟨acks, ping, box, table⟩, drainEvents⟩ := drained
  dsimp only
  generalize box.startFrame link time session.window.center = start
  obtain ⟨⟨outcome, box⟩, startEvents⟩ := start
  cases outcome with
  | error error => rfl
  | ok =>
    simp only [Noted.value_bind]
    generalize Projection.project link time table _ box = projection
    obtain ⟨⟨summary, table, names, box⟩, projectEvents⟩ := projection
    cases summary with
    | error error => rfl
    | ok summary => rfl

theorem endFrame_later (link : Link) {session : Session} (time : Time)
    (tidy : session.core.Tidy) :
    Outbox.Later session.acked.outbox (session.endFrame link time).value.2.outbox := by
  have worked := settleAll_path link time (session.intake.queue.map Ack.id) session.names
    session.intake.queue (fun ack ha => List.mem_map_of_mem ha) session.intake.ping session.table
    session.outbox
  have path := endFrame_path link time session.acked (tidy_of_path worked tidy)
  have later := path.keeps (P := fun _ core => Outbox.Later session.acked.outbox core.box)
    (fun _ _ _ _ later step => later.trans (step.later nofun)) [] (.refl _)
  rw [endFrame_acked] at later
  exact later

namespace Turn

def stages (turn : Turn) : List Intake.Stage :=
  match turn.call with
  | .endFrame _ =>
    Intake.stages turn.before.intake.queue turn.before.outbox turn.before.table
  | _ => []

def outboxes (turn : Turn) : List Outbox :=
  turn.before.outbox :: turn.stages.map fun stage => stage.after.1

variable {turn : Turn} {events : List Event} {capacity : Nat}

theorem settling (tidy : turn.before.core.Tidy) (ledger : Ledger events turn.before.outbox)
    (few : Few (events ++ turn.events)) (h : Outbox.Settling capacity turn.before.outbox) :
    Ledger (events ++ turn.events) turn.after.outbox ∧
      Outbox.Settling capacity turn.after.outbox ∧
      Outbox.Later turn.before.outbox turn.after.outbox := by
  have start : Few events → Ledger events turn.before.core.box ∧
      Outbox.Settling capacity turn.before.core.box ∧
      Outbox.Later turn.before.outbox turn.before.core.box := fun _ => ⟨ledger, h, .refl _⟩
  refine (run_keeps (P := fun events core => Few events → Ledger events core.box ∧
    Outbox.Settling capacity core.box ∧ Outbox.Later turn.before.outbox core.box)
    turn.call events ?_ tidy start).2 few
  intro events core es next tidy known step few
  obtain ⟨ledger, settles, later⟩ := known few.of_append
  obtain ⟨settles, since⟩ := step.settling ledger.toNumbered few settles
  exact ⟨step.ledger tidy (fun _ => ledger) few, settles, later.trans since⟩

/-- The acknowledgments lead to an outbox from which the operation goes on. -/
theorem passage (tidy : turn.before.core.Tidy) (ledger : Ledger events turn.before.outbox)
    (few : Few (events ++ turn.events)) (h : Outbox.Settling capacity turn.before.outbox) :
    ∃ worked, Intake.Passage capacity (messagesSent events) turn.before.outbox turn.stages worked ∧
      Outbox.Later worked turn.after.outbox := by
  have later := (settling tidy ledger few h).2.2
  obtain ⟨link, before, call⟩ := turn
  cases call with
  | endFrame time =>
    exact ⟨before.acked.outbox, Intake.stages_passage _ _ _ ledger.toNumbered h,
      endFrame_later link time tidy⟩
  | _ =>
    exact ⟨before.outbox,
      ⟨ledger.toNumbered, h, .refl _, nofun, .nil, .nil, nofun⟩, later⟩

end Turn

def outboxes (calls : List (Link × Call)) (session : Session) : List Outbox :=
  (turns calls session).flatMap Turn.outboxes ++ [(play calls session).value.outbox]

/-- The messages whose records the acknowledgments of a run have used up, in order. -/
def usedUp (past : List Turn) : List MessageId := Intake.used (past.flatMap Turn.stages)

structure Passed (capacity : Nat) (past : List Turn) (session : Session) : Prop where
  ledger : Ledger (eventsOf past) session.outbox
  settling : ∀ box ∈ past.flatMap Turn.outboxes ++ [session.outbox], Outbox.Settling capacity box
  onward : (past.flatMap Turn.outboxes ++ [session.outbox]).Pairwise Outbox.Later
  once : (usedUp past).Nodup
  gone : ∀ id ∈ usedUp past, Outbox.Gone id session.outbox

theorem Passed.step {capacity : Nat} {past : List Turn} {turn : Turn}
    (h : Passed capacity past turn.before) (tidy : turn.before.core.Tidy)
    (few : Few (eventsOf (past ++ [turn]))) : Passed capacity (past ++ [turn]) turn.after := by
  have events : eventsOf (past ++ [turn]) = eventsOf past ++ turn.events := by simp [eventsOf]
  rw [events] at few
  have settles := h.settling turn.before.outbox (by simp)
  obtain ⟨ledger, last, since⟩ := turn.settling tidy h.ledger few settles
  obtain ⟨worked, passage, later⟩ := turn.passage tidy h.ledger few settles
  have moments : (past ++ [turn]).flatMap Turn.outboxes ++ [turn.after.outbox] =
      (past.flatMap Turn.outboxes ++ [turn.before.outbox]) ++
        (turn.stages.map (fun stage => stage.after.1) ++ [turn.after.outbox]) := by
    simp [Turn.outboxes]
  have used : usedUp (past ++ [turn]) = usedUp past ++ Intake.used turn.stages := by
    simp [usedUp, Intake.used]
  -- Every outbox so far comes before the one at hand, and that one before those to come.
  have before : ∀ box ∈ past.flatMap Turn.outboxes ++ [turn.before.outbox],
      Outbox.Later box turn.before.outbox := by
    intro box hb
    rcases List.mem_append.1 hb with hb | hb
    · exact (List.pairwise_append.1 h.onward).2.2 box hb _ (List.mem_singleton_self _)
    · rw [List.mem_singleton.1 hb]
      exact .refl _
  have after : ∀ box ∈ turn.stages.map (fun stage => stage.after.1) ++ [turn.after.outbox],
      Outbox.Settling capacity box ∧ Outbox.Later turn.before.outbox box ∧
        Outbox.Later box turn.after.outbox := by
    intro box hb
    rcases List.mem_append.1 hb with hb | hb
    · obtain ⟨stage, hs, rfl⟩ := List.mem_map.1 hb
      obtain ⟨settles, first, onward⟩ := passage.between stage hs
      exact ⟨settles, first, onward.trans later⟩
    · rw [List.mem_singleton.1 hb]
      exact ⟨last, since, .refl _⟩
  refine ⟨events ▸ ledger, ?_, ?_, ?_, ?_⟩
  · rw [moments]
    intro box hb
    rcases List.mem_append.1 hb with hb | hb
    · exact h.settling box hb
    · exact (after box hb).1
  · rw [moments, List.pairwise_append]
    refine ⟨h.onward, List.pairwise_append.2 ⟨passage.onward, List.pairwise_singleton _ _, ?_⟩, ?_⟩
    · intro box hb next hn
      rw [List.mem_singleton.1 hn]
      exact (after box (List.mem_append_left _ hb)).2.2
    · exact fun box hb next hn => (before box hb).trans (after next hn).2.1
  · rw [used, List.nodup_append]
    refine ⟨h.once, passage.once, fun id old other new same => ?_⟩
    exact (h.gone id old).2 (same ▸ (passage.held other new).1)
  · rw [used]
    intro id hid
    rcases List.mem_append.1 hid with hid | hid
    · exact since.gone (h.gone id hid)
    · exact later.gone (passage.held id hid).2

theorem turns_passed (grid : Grid) (settings : Settings) (calls : List (Link × Call))
    (few : Few (play calls (new grid settings)).events) :
    Passed (max settings.maxOutstanding 1) (turns calls (new grid settings))
      (play calls (new grid settings)).value := by
  have start : Few (eventsOf []) →
      Passed (max settings.maxOutstanding 1) [] (new grid settings) := by
    refine fun _ => ⟨.of_new grid settings, fun box hb => ?_, List.pairwise_singleton _ _, .nil,
      nofun⟩
    rw [List.mem_singleton.1 hb]
    exact .of_new settings.maxMessageSize settings.maxOutstanding
  rw [play_events] at few
  refine (turns_keep (P := fun past session => Few (eventsOf past) →
    Passed (max settings.maxOutstanding 1) past session) ?_ calls (new_tidy grid settings)
    start).2 few
  intro past turn tidy h few
  refine (h ?_).step tidy few
  have events : eventsOf (past ++ [turn]) = eventsOf past ++ turn.events := by simp [eventsOf]
  rw [events] at few
  exact few.of_append

/-- Acknowledgments are used up once, whatever is posted and whichever messages are refused. The end
of a tick works off its queue in order. Each record serves one acknowledgment at most, and an
acknowledgment that finds no record changes nothing: its message was never sent, is still being
filled, or had its record used up or pushed out before. What leaves the records or the echoes never
comes back, no message is both recorded and echoed, neither are too many, and the mark below which
all is settled only goes up. -/
theorem acks_used_up_once (grid : Grid) (settings : Settings) (calls : List (Link × Call))
    (few : Few (play calls (new grid settings)).events) :
    let events := (play calls (new grid settings)).events
    let past := turns calls (new grid settings)
    let boxes := outboxes calls (new grid settings)
    (usedUp past).Nodup ∧
    (∀ id ∈ usedUp past, ∃ message ∈ messagesSent events, message.id = id) ∧
    (∀ turn ∈ past, ∀ time, turn.call = .endFrame time →
      turn.stages.map Intake.Stage.ack = turn.before.intake.queue ∧
      turn.stages.foldl (fun _ stage => stage.after) (turn.before.outbox, turn.before.table) =
        (turn.before.acked.outbox, turn.before.acked.table)) ∧
    (∀ turn ∈ past, ∀ stage ∈ turn.stages, stage.ack.id ∉ stage.box.outstanding →
      stage.after = (stage.box, stage.table)) ∧
    (∀ earlier later, [earlier, later].Sublist boxes → ∀ id < earlier.nextId,
      id ∉ earlier.outstanding → id ∉ later.outstanding) ∧
    (∀ earlier middle later, [earlier, middle, later].Sublist boxes → ∀ id ∈ earlier.toEcho,
      id ∉ middle.toEcho → id ∉ later.toEcho) ∧
    (∀ box ∈ boxes, (∀ id ∈ box.toEcho, id ∉ box.outstanding) ∧ box.toEcho.length ≤ 64 ∧
      box.outstanding.size ≤ max 1 settings.maxOutstanding ∧
      box.settledBefore ≤ box.nextId ∧
      ∀ id ∈ box.outstanding, box.settledBefore ≤ id ∧ id < box.nextId) ∧
    boxes.Pairwise fun earlier later => earlier.settledBefore ≤ later.settledBefore := by
  intro events past boxes
  have passed := turns_passed grid settings calls few
  have later : boxes.Pairwise Outbox.Later := passed.onward
  have settles : ∀ box ∈ boxes, Outbox.Settling (max settings.maxOutstanding 1) box :=
    passed.settling
  refine ⟨passed.once, fun id hid => ?_, fun turn _ time ended => ?_,
    fun turn _ stage _ unheld => ?_, ?_, ?_, fun box hb => ?_,
    later.imp_of_mem fun {earlier next} he _ later => ?_⟩
  · have sent := passed.ledger.sent_of_lt (passed.gone id hid).1
    rwa [← play_events] at sent
  · have stages : turn.stages = Intake.stages turn.before.intake.queue turn.before.outbox
        turn.before.table := by rw [Turn.stages, ended]
    rw [stages]
    exact ⟨Intake.stages_acks _ _ _, Intake.stages_last _ turn.before.intake.ping _ _⟩
  · rw [Intake.Stage.after, Intake.settle, Outbox.takeRecord_eq_none.2 unheld]
    rfl
  · intro earlier next order id sent unheld
    have later := List.rel_of_pairwise_cons (later.sublist order) List.mem_cons_self
    exact (later.gone ⟨sent, unheld⟩).2
  · intro earlier middle next order id echoed dropped
    have early := settles earlier (order.subset List.mem_cons_self)
    obtain ⟨first, onward⟩ := List.pairwise_cons.1 (later.sublist order)
    have gone : Outbox.Gone id middle :=
      (first middle List.mem_cons_self).gone ⟨early.echoed_lt id echoed, early.apart id echoed⟩
    have since := List.rel_of_pairwise_cons onward List.mem_cons_self
    exact since.not_echoed gone dropped
  · have known := settles box hb
    refine ⟨known.apart, known.echoes, ?_, ?_, fun id held => ⟨?_, known.recorded_lt id held⟩⟩
    · rw [Nat.max_comm]
      exact known.records
    · exact Outbox.settledBefore_le_next fun id held => UInt64.le_of_lt (known.recorded_lt id held)
    · exact Outbox.settledBefore_le held
  · exact Outbox.settledBefore_mono later.number
      (fun id held => UInt64.le_of_lt ((settles earlier he).recorded_lt id held)) later.recorded

/-- Two messages are sent, the first of them is acknowledged twice, and so is one never sent. -/
def answeredTwice : List (Link × Call) :=
  undisturbed [sightings 1 [7], .endFrame 1, .endBlock, .post ⟨0, 0, 0⟩, .post ⟨0, 0, 0⟩,
    .post ⟨9, 0, 0⟩, sightings 2 [7], .endFrame 2, .endBlock]

set_option maxRecDepth 4000 in
theorem acks_used_up_once_answeredTwice :
    Few (play answeredTwice (new ⟨⟨.one, .one, .one⟩⟩ {})).events ∧
      usedUp (turns answeredTwice (new ⟨⟨.one, .one, .one⟩⟩ {})) = [0] ∧
      (usedUp (turns answeredTwice (new ⟨⟨.one, .one, .one⟩⟩ {}))).Nodup := by
  have few : Few (play answeredTwice (new ⟨⟨.one, .one, .one⟩⟩ {})).events := by decide_cbv
  exact ⟨few, by decide_cbv, (acks_used_up_once _ _ answeredTwice few).1⟩

end Session

end AreaReplication
