import AreaReplication.Proofs.Acks
import AreaReplication.Proofs.History
import AreaReplication.Proofs.ReplicaRun
import Mathlib.Data.List.Find

/-!
# Acknowledgments may come in any order

Each acknowledgment confirms versions of objects, and one that is taken drops the history that the
next one is looked up in. Yet all of them together come down to one question for each object: which
of the versions that its history holds are confirmed. The newest of these becomes the baseline.
-/
namespace AreaReplication

namespace Replica

/-- The object once the newest confirmed version that its history holds is the baseline. -/
def confirm (confirmed : Version → Bool) (replica : Replica) : Replica :=
  match replica.history.entries.find? fun entry => confirmed entry.1 with
  | none => replica
  | some entry =>
    { replica with
      baseline := some entry.2
      history := replica.history.dropThrough entry.1 }

/-- What confirming versions leaves to choose the baseline from. -/
def candidates (confirmed : Version → Bool) (replica : Replica) : List Snapshot :=
  replica.baseline.toList ++
    (replica.history.entries.filter fun entry => confirmed entry.1).map (·.2)

variable {replica : Replica} {p q : Version → Bool}

theorem confirm_of_none
    (unconfirmed : ∀ entry ∈ replica.history.entries, p entry.1 = false) :
    replica.confirm p = replica := by
  have absent : (replica.history.entries.find? fun entry => p entry.1) = none := by
    rw [List.find?_eq_none]
    intro entry he
    simp [unconfirmed entry he]
  rw [confirm, absent]

theorem confirm_nothing : (confirm fun _ => false) = fun replica => replica := by
  funext replica
  exact confirm_of_none (p := fun _ => false) fun _ _ => rfl

/-- The newest entry that is confirmed, with the entries above it. -/
theorem confirm_of_split {newer older : List (Version × Snapshot)} {entry : Version × Snapshot}
    (split : replica.history.entries = newer ++ entry :: older) (confirmed : p entry.1)
    (newest : ∀ other ∈ newer, p other.1 = false) : replica.confirm p = { replica with
      baseline := some entry.2
      history := replica.history.dropThrough entry.1 } := by
  have found : (replica.history.entries.find? fun entry => p entry.1) = some entry := by
    rw [List.find?_eq_some_iff_append]
    refine ⟨confirmed, newer, older, split, fun other ho => ?_⟩
    simp [newest other ho]
  rw [confirm, found]

/-- Nothing that the history holds is confirmed, or one of the confirmed entries is the newest. -/
theorem confirm_cases (replica : Replica) (p : Version → Bool) :
    (∀ entry ∈ replica.history.entries, p entry.1 = false) ∨
      ∃ newer entry older, replica.history.entries = newer ++ entry :: older ∧ p entry.1 ∧
        ∀ other ∈ newer, p other.1 = false := by
  cases found : replica.history.entries.find? fun entry => p entry.1 with
  | none =>
    rw [List.find?_eq_none] at found
    exact .inl fun entry he => by simpa using found entry he
  | some entry =>
    obtain ⟨confirmed, newer, older, split, newest⟩ := List.find?_eq_some_iff_append.1 found
    exact .inr ⟨newer, entry, older, split, confirmed,
      fun other ho => by simpa using newest other ho⟩

theorem commit_eq_confirm (h : Sound replica) (version : Version) :
    (replica.commit version).2 = replica.confirm fun other => other = version := by
  unfold commit
  split_ifs with covered
  · obtain ⟨base, hb, hle⟩ := (Option.any_eq_true _ _).1 covered
    obtain ⟨snapshot, hs, rfl⟩ := Option.map_eq_some_iff.1 hb
    refine (confirm_of_none fun entry he => decide_eq_false ?_).symm
    rintro rfl
    have above := h.above snapshot hs entry he
    exact UInt64.not_lt.2 (of_decide_eq_true hle) above
  · unfold History.get? confirm
    cases found : replica.history.entries.find? fun entry => entry.1 = version with
    | none => rfl
    | some entry =>
      obtain rfl : entry.1 = version := by simpa using List.find?_some found
      rfl

/-- Confirming some versions and then others is confirming all of them. -/
theorem confirm_confirm (h : Sound replica) :
    (replica.confirm p).confirm q = replica.confirm fun version => p version || q version := by
  rcases replica.confirm_cases p with unconfirmed | ⟨newer, entry, older, split, confirmed, newest⟩
  · have same : (replica.history.entries.find? fun entry => q entry.1) =
        replica.history.entries.find? fun entry => p entry.1 || q entry.1 := by
      refine List.find?_congr fun entry he => ?_
      rw [unconfirmed entry he, Bool.false_or]
    rw [confirm_of_none unconfirmed, confirm, confirm, same]
  · have dropped := History.dropThrough_entries h.falling split
    have first := confirm_of_split split confirmed newest
    have held : (replica.confirm p).history.entries = newer := by rw [first]; exact dropped
    rcases (replica.confirm p).confirm_cases q with
      unconfirmed | ⟨latest, next, rest, again, also, last⟩
    · rw [confirm_of_none unconfirmed, first]
      rw [held] at unconfirmed
      refine (confirm_of_split split (by simp [confirmed]) fun other ho => ?_).symm
      simp [newest other ho, unconfirmed other ho]
    · rw [confirm_of_split again also last]
      rw [held] at again
      have whole : replica.history.entries = latest ++ next :: (rest ++ entry :: older) := by
        rw [split, again, List.append_assoc, List.cons_append]
      have newer_of_latest : ∀ other ∈ latest, other ∈ newer := by
        intro other ho
        rw [again]
        exact List.mem_append_left _ ho
      rw [confirm_of_split (p := fun version => p version || q version) whole (by simp [also])
        fun other ho => by simp [newest other (newer_of_latest other ho), last other ho]]
      have falling := h.falling
      rw [split] at falling
      have above : entry.1 < next.1 :=
        (List.pairwise_append.1 falling).2.2 next (by simp [again]) entry List.mem_cons_self
      rw [first]
      simp only [History.dropThrough_dropThrough (UInt64.le_of_lt above)]

theorem mem_candidates {snapshot : Snapshot} : snapshot ∈ replica.candidates p ↔
    replica.baseline = some snapshot ∨
      ∃ entry ∈ replica.history.entries, p entry.1 ∧ entry.2 = snapshot := by
  simp [candidates, Option.mem_toList, and_assoc]

/-- The new baseline is the newest of the candidates. -/
theorem confirm_baseline (h : Sound replica) (p : Version → Bool) :
    (∀ base, (replica.confirm p).baseline = some base → base ∈ replica.candidates p) ∧
      ∀ snapshot ∈ replica.candidates p, ∃ base, (replica.confirm p).baseline = some base ∧
        snapshot.version ≤ base.version := by
  rcases replica.confirm_cases p with unconfirmed | ⟨newer, entry, older, split, confirmed, newest⟩
  · rw [confirm_of_none unconfirmed]
    refine ⟨fun base hb => mem_candidates.2 (.inl hb), fun snapshot hs => ?_⟩
    rcases mem_candidates.1 hs with hb | ⟨entry, he, confirmed, -⟩
    · exact ⟨snapshot, hb, UInt64.le_rfl⟩
    · rw [unconfirmed entry he] at confirmed
      cases confirmed
  · have held : entry ∈ replica.history.entries := by simp [split]
    rw [confirm_of_split split confirmed newest]
    refine ⟨fun base hb => ?_, fun snapshot hs => ⟨entry.2, rfl, ?_⟩⟩
    · obtain rfl : entry.2 = base := Option.some.inj hb
      exact mem_candidates.2 (.inr ⟨entry, held, confirmed, rfl⟩)
    · rw [h.named entry held]
      rcases mem_candidates.1 hs with hb | ⟨other, ho, also, rfl⟩
      · exact UInt64.le_of_lt (h.above snapshot hb entry held)
      · rw [h.named other ho]
        have falling := h.falling
        rw [split] at falling ho
        rcases List.mem_append.1 ho with ho | ho
        · rw [newest other ho] at also
          cases also
        · rcases List.mem_cons.1 ho with rfl | ho
          · exact UInt64.le_rfl
          · have below := (List.pairwise_append.1 falling).2.1
            exact UInt64.le_of_lt (List.rel_of_pairwise_cons below ho)

theorem confirm_rest (replica : Replica) (p : Version → Bool) :
    replica.confirm p = { replica with
      baseline := (replica.confirm p).baseline
      history := (replica.confirm p).history } := by
  unfold confirm
  split <;> rfl

end Replica

namespace ReplicaTable

variable {table : ReplicaTable} {acked : MessageId}

theorem ext_get? {one other : ReplicaTable} (capacity : one.historyCapacity = other.historyCapacity)
    (same : ∀ id, one.get? id = other.get? id) : one = other := by
  obtain ⟨replicas, historyCapacity⟩ := one
  obtain ⟨replicas', historyCapacity'⟩ := other
  obtain rfl : historyCapacity = historyCapacity' := capacity
  obtain rfl : replicas = replicas' := Std.ExtTreeMap.ext_getElem? same
  rfl

theorem commitStates_get? {states : List (NetId × Version)} (keyed : table.Keyed)
    (sound : table.Sound) (id : NetId) : (commitStates acked states table).value.2.get? id =
      (table.get? id).map (Replica.confirm fun version => states.contains (id, version)) := by
  induction states generalizing table with
  | nil => simp [commitStates, Replica.confirm_nothing]
  | cons pair rest ih =>
    obtain ⟨carried, version⟩ := pair
    simp only [commitStates]
    cases held : table.get? carried with
    | none =>
      simp only
      rw [ih keyed sound]
      by_cases same : id = carried
      · rw [same, held]
        rfl
      · have other : ∀ v, ((carried, version) :: rest).contains (id, v) =
            rest.contains (id, v) := by
          intro v
          simp [same]
        simp only [other]
    | some replica =>
      have known := sound carried replica held
      have netId : (replica.commit version).2.netId = carried :=
        (Replica.commit_confirms known version).netId.trans (keyed carried replica held)
      simp only [Noted.value_bind, Noted.value_pure]
      rw [ih (keyed.put _) (sound.put (Replica.commit_sound known version)), get?_put, netId]
      by_cases same : carried = id
      · subst same
        rw [if_pos rfl, held, Option.map_some, Option.map_some, Replica.commit_eq_confirm known,
          Replica.confirm_confirm known]
        simp
      · have other : ∀ v, ((carried, version) :: rest).contains (id, v) =
            rest.contains (id, v) := by
          intro v
          simp [Ne.symm same]
        rw [if_neg same]
        simp only [other]

end ReplicaTable

namespace Outbox

/-- An acknowledgment is for a recorded message that carried `version` of the object. -/
def acknowledges (box : Outbox) (acks : List Ack) (id : NetId) (version : Version) : Bool :=
  acks.any fun ack =>
    box.outstanding[ack.id]?.any fun record => record.states.contains (id, version)

end Outbox

namespace Intake

variable {box : Outbox} {table : ReplicaTable}

theorem settle_cases (box : Outbox) (table : ReplicaTable) (acked : MessageId) :
    (box.outstanding[acked]? = none ∧ (settle box table acked).value.2 = (box, table)) ∨
      ∃ record, box.outstanding[acked]? = some record ∧
        (settle box table acked).value.2.1.outstanding = box.outstanding.erase acked ∧
        (settle box table acked).value.2.2 = (table.commit record).value.2 := by
  unfold settle
  cases taken : box.takeRecord acked with
  | none =>
    have unheld := Outbox.takeRecord_eq_none.1 taken
    exact .inl ⟨Std.ExtTreeMap.getElem?_eq_none unheld, rfl⟩
  | some pair =>
    obtain ⟨record, rest⟩ := pair
    obtain ⟨held, rfl⟩ := Outbox.takeRecord_some taken
    refine .inr ⟨record, held, ?_⟩
    simp only [Noted.value_bind]
    split_ifs <;> exact ⟨rfl, rfl⟩

theorem settle_outstanding (box : Outbox) (table : ReplicaTable) (acked id : MessageId) :
    (settle box table acked).value.2.1.outstanding[id]? =
      if acked = id then none else box.outstanding[id]? := by
  rcases settle_cases box table acked with ⟨unheld, same⟩ | ⟨record, held, erased, -⟩
  · rw [same]
    split_ifs with named
    · rw [← named, unheld]
    · rfl
  · rw [erased, Std.ExtTreeMap.getElem?_erase]
    simp only [Std.LawfulEqCmp.compare_eq_iff_eq]

theorem settle_table (box : Outbox) (keyed : table.Keyed) (sound : table.Sound)
    (acked : MessageId) :
    let settled := (settle box table acked).value.2.2
    (settled.Keyed ∧ settled.Sound ∧ settled.historyCapacity = table.historyCapacity) ∧
      ∀ id, settled.get? id = (table.get? id).map (Replica.confirm fun version =>
        box.outstanding[acked]?.any fun record => record.states.contains (id, version)) := by
  rcases settle_cases box table acked with ⟨unheld, same⟩ | ⟨record, held, -, committed⟩
  · rw [same]
    refine ⟨⟨keyed, sound, rfl⟩, fun id => ?_⟩
    simp only [unheld, Option.any_none, Replica.confirm_nothing, Option.map_id']
  · simp only [held, committed, Option.any_some]
    obtain ⟨keyed', sound', confirms⟩ := ReplicaTable.commitStates_keeps keyed sound
    exact ⟨⟨keyed', sound', confirms.capacity⟩, ReplicaTable.commitStates_get? keyed sound⟩

theorem settleAll_outstanding (acks : List Ack) (ping : Ping) (box : Outbox)
    (table : ReplicaTable) (id : MessageId) :
    (settleAll acks ping box table).value.2.2.1.outstanding[id]? =
      if acks.any fun ack => ack.id = id then none else box.outstanding[id]? := by
  induction acks generalizing ping box table with
  | nil => rfl
  | cons ack rest ih =>
    simp only [settleAll, Noted.value_bind, Noted.value_pure]
    rw [ih, settle_outstanding, List.any_cons]
    by_cases first : ack.id = id
    · simp [first]
    · simp [first]

/-- An acknowledgment that comes again finds no record, but what it is for has been confirmed. -/
theorem acknowledges_cons (box : Outbox) (table : ReplicaTable) (ack : Ack) (rest : List Ack)
    (id : NetId) :
    box.acknowledges (ack :: rest) id = fun version =>
      box.outstanding[ack.id]?.any (fun record => record.states.contains (id, version)) ||
        (settle box table ack.id).value.2.1.acknowledges rest id version := by
  funext version
  simp only [Outbox.acknowledges, List.any_cons, settle_outstanding]
  cases first : box.outstanding[ack.id]?.any fun record => record.states.contains (id, version) with
  | true => rfl
  | false =>
    simp only [Bool.false_or]
    congr 1
    funext other
    split_ifs with again
    · rw [← again, first]
      rfl
    · rfl

/-- All acknowledgments together confirm what any of them is for. -/
theorem settleAll_table (acks : List Ack) (ping : Ping) (box : Outbox) (keyed : table.Keyed)
    (sound : table.Sound) :
    let settled := (settleAll acks ping box table).value.2.2.2
    settled.historyCapacity = table.historyCapacity ∧
      ∀ id, settled.get? id = (table.get? id).map (Replica.confirm (box.acknowledges acks id)) := by
  induction acks generalizing ping box table with
  | nil =>
    have nothing : ∀ id, box.acknowledges [] id = fun _ => false := fun _ => rfl
    refine ⟨rfl, fun id => ?_⟩
    rw [nothing, Replica.confirm_nothing, Option.map_id']
    rfl
  | cons ack rest ih =>
    obtain ⟨⟨keyed', sound', capacity⟩, first⟩ := settle_table box keyed sound ack.id
    obtain ⟨capacities, others⟩ :=
      ih (ping.record ack.roundTrip).value (settle box table ack.id).value.2.1 keyed' sound'
    simp only [settleAll, Noted.value_bind, Noted.value_pure]
    refine ⟨capacities.trans capacity, fun id => ?_⟩
    rw [others, first]
    cases held : table.get? id with
    | none => rfl
    | some replica =>
      rw [Option.map_some, Option.map_some, Option.map_some,
        Replica.confirm_confirm (sound id replica held)]
      rw [acknowledges_cons box table]

/-- Acknowledgments may be worked off in any order, doubled ones and unknown ones among them: what
is left recorded and the objects come out the same. Of an object only the baseline and the history
change, and the baseline is the newest of the old one and what the history holds of the versions
that acknowledged messages carried. -/
theorem ack_order_irrelevant (box : Outbox) {table : ReplicaTable} (reach : table.Reachable)
    (first second : Intake) (same : first.queue.Perm second.queue) :
    let one := (first.drain box table).value.2.2
    let other := (second.drain box table).value.2.2
    one.1.outstanding = other.1.outstanding ∧ one.2 = other.2 ∧
    ∀ id replica, table.get? id = some replica → ∃ left, one.2.get? id = some left ∧
      left = { replica with baseline := left.baseline, history := left.history } ∧
      (∀ base, left.baseline = some base →
        base ∈ replica.candidates (box.acknowledges first.queue id)) ∧
      ∀ snapshot ∈ replica.candidates (box.acknowledges first.queue id), ∃ base,
        left.baseline = some base ∧ snapshot.version ≤ base.version := by
  intro one other
  obtain ⟨keyed, sound⟩ := reach.sound
  obtain ⟨capacity, got⟩ := settleAll_table first.queue first.ping box keyed sound
  obtain ⟨capacity', got'⟩ := settleAll_table second.queue second.ping box keyed sound
  refine ⟨Std.ExtTreeMap.ext_getElem? fun id => ?_, ReplicaTable.ext_get? ?_ fun id => ?_,
    fun id replica held => ⟨replica.confirm (box.acknowledges first.queue id), ?_, ?_, ?_⟩⟩
  · have one := settleAll_outstanding first.queue first.ping box table id
    have other := settleAll_outstanding second.queue second.ping box table id
    rw [same.any_eq] at one
    exact one.trans other.symm
  · exact capacity.trans capacity'.symm
  · have acknowledged : box.acknowledges first.queue id = box.acknowledges second.queue id :=
      funext fun version => same.any_eq
    refine (got id).trans ?_
    rw [acknowledged]
    exact (got' id).symm
  · refine (got id).trans ?_
    rw [held, Option.map_some]
  · exact replica.confirm_rest _
  · exact Replica.confirm_baseline (sound id replica held) _

end Intake

namespace Session

/-- Two messages have gone out, each with a version of the object that entity 7 has under id 1. -/
def twoSent : List (Link × Call) :=
  undisturbed [sightings 1 [7], .endFrame 1, .endBlock, sightings 2 [7], .endFrame 2, .endBlock]

def twoSentState : Session := (play twoSent (new ⟨⟨.one, .one, .one⟩⟩ {})).value

def orderly : Intake where
  queue := [⟨0, 0, 0⟩, ⟨1, 0, 0⟩, ⟨0, 0, 0⟩]
  ping := twoSentState.intake.ping

def overtaken : Intake :=
  { queue := [⟨1, 0, 0⟩, ⟨0, 0, 0⟩, ⟨0, 0, 0⟩], ping := twoSentState.intake.ping }

set_option maxRecDepth 4000 in
theorem ack_order_irrelevant_twoSent :
    twoSentState.outbox.outstanding.keys = [0, 1] ∧ orderly.queue.Perm overtaken.queue ∧
      (orderly.drain twoSentState.outbox twoSentState.table).value.2.2.2 =
        (overtaken.drain twoSentState.outbox twoSentState.table).value.2.2.2 ∧
      ((orderly.drain twoSentState.outbox twoSentState.table).value.2.2.2.get? 1).map
        Replica.baselineVersion = some (some 2) := by
  have same : orderly.queue.Perm overtaken.queue := by decide
  have reach : twoSentState.table.Reachable := play_reachable _ _ twoSent
  refine ⟨by decide_cbv, same, ?_, by decide_cbv⟩
  exact (Intake.ack_order_irrelevant twoSentState.outbox reach orderly overtaken same).2.1

end Session

end AreaReplication
