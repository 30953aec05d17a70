import AreaReplication.Proofs.AckOrder

/-!
# When an acknowledged message is settled

The versions that a message carried are confirmed one after the other. A message is called settled
if each baseline is in place when its version has had its turn, which is more than that all of them
are in the end: a version that has left its history stays missing, even if a later one of the same
object takes the baseline past it.
-/
namespace AreaReplication

namespace Replica

variable {replica : Replica} {version : Version}

def covers (replica : Replica) (version : Version) : Bool :=
  replica.baselineVersion.any fun base => version ≤ base

/-- The baseline is at or past the version, or the history holds a confirmed one that is. -/
def Reaches (confirmed : Version → Prop) (replica : Replica) (version : Version) : Prop :=
  replica.covers version ∨
    ∃ entry ∈ replica.history.entries, confirmed entry.1 ∧ version ≤ entry.1

theorem Reaches.mono {p q : Version → Prop} (hpq : ∀ version, p version → q version)
    (h : replica.Reaches p version) : replica.Reaches q version :=
  h.imp_right fun ⟨entry, held, confirmed, le⟩ => ⟨entry, held, hpq _ confirmed, le⟩

theorem covers_iff : replica.covers version ↔
    ∃ base, replica.baseline = some base ∧ version ≤ base.version := by
  simp [covers, baselineVersion, Option.any_eq_true]

theorem covers_confirm (h : Sound replica) (p : Version → Bool) :
    (replica.confirm p).covers version ↔ replica.Reaches (fun version => p version) version := by
  obtain ⟨chosen, newest⟩ := confirm_baseline h p
  rw [covers_iff, Reaches, covers_iff]
  constructor
  · rintro ⟨base, hb, le⟩
    rcases mem_candidates.1 (chosen base hb) with kept | ⟨entry, held, confirmed, rfl⟩
    · exact .inl ⟨base, kept, le⟩
    · exact .inr ⟨entry, held, confirmed, h.named entry held ▸ le⟩
  · rintro (⟨base, kept, le⟩ | ⟨entry, held, confirmed, le⟩)
    · obtain ⟨risen, hr, above⟩ := newest base (mem_candidates.2 (.inl kept))
      exact ⟨risen, hr, UInt64.le_trans le above⟩
    · obtain ⟨risen, hr, above⟩ :=
        newest entry.2 (mem_candidates.2 (.inr ⟨entry, held, confirmed, rfl⟩))
      rw [h.named entry held] at above
      exact ⟨risen, hr, UInt64.le_trans le above⟩

/-- A version is not missing exactly if it is covered once it has been confirmed. -/
theorem commit_isSettled (h : Sound replica) :
    (replica.commit version).1.isSettled = (replica.commit version).2.covers version := by
  by_cases covered : replica.covers version
  · have same : replica.commit version = (.covered, replica) := if_pos covered
    rw [same, covered]
    rfl
  · rcases replica.commit_cases version with
      ⟨base, hb, le, -⟩ | ⟨snapshot, held, -, moved⟩ | missing
    · exact absurd (covers_iff.2 ⟨base, hb, le⟩) covered
    · have named : snapshot.version = version := h.named _ held
      rw [moved]
      exact (covers_iff.2 ⟨snapshot, rfl, UInt64.le_of_eq named.symm⟩).symm
    · rw [missing]
      exact (Bool.eq_false_iff.2 covered).symm

end Replica

namespace ReplicaTable

variable {table : ReplicaTable} {acked : MessageId} {states : List (NetId × Version)}

/-- Each of the given objects that is still there has a baseline at or past the given version. -/
def settles (table : ReplicaTable) (states : List (NetId × Version)) : Bool :=
  states.all fun pair => (table.get? pair.1).all fun replica => replica.covers pair.2

theorem settles_iff : table.settles states ↔
    ∀ pair ∈ states, ∀ replica ∈ table.get? pair.1, replica.covers pair.2 := by
  simp [settles, Option.all_eq_true]

theorem covers_commitStates (keyed : table.Keyed) (sound : table.Sound) (pair : NetId × Version) :
    (∀ replica ∈ (commitStates acked states table).value.2.get? pair.1, replica.covers pair.2) ↔
      ∀ replica ∈ table.get? pair.1,
        replica.Reaches (fun version => (pair.1, version) ∈ states) pair.2 := by
  rw [commitStates_get? keyed sound]
  cases held : table.get? pair.1 with
  | none => simp
  | some replica =>
    let p : Version → Bool := fun version => states.contains (pair.1, version)
    have confirmed : (replica.confirm p).covers pair.2 ↔
        replica.Reaches (fun version => p version) pair.2 :=
      Replica.covers_confirm (sound _ _ held) p
    simpa [p] using confirmed

/-- A place in a list is its first one or a place in what is left. -/
theorem forall_place_cons {α : Type} {P : List α → α → Prop} {first : α} {rest : List α} :
    (∀ earlier here, earlier ++ [here] <+: first :: rest → P earlier here) ↔
      P [] first ∧ ∀ earlier here, earlier ++ [here] <+: rest → P (first :: earlier) here := by
  constructor
  · intro h
    refine ⟨h [] first (by simp), fun earlier here front => ?_⟩
    exact h (first :: earlier) here (List.cons_prefix_cons.2 ⟨rfl, front⟩)
  · rintro ⟨one, more⟩ earlier here front
    cases earlier with
    | nil =>
      obtain ⟨rfl, -⟩ := List.cons_prefix_cons.1 front
      exact one
    | cons other earlier =>
      obtain ⟨rfl, behind⟩ := List.cons_prefix_cons.1 front
      exact more earlier here behind

theorem commitStates_settled_iff (keyed : table.Keyed) (sound : table.Sound) :
    (commitStates acked states table).value.1.settled ↔
      ∀ earlier pair, earlier ++ [pair] <+: states →
        ∀ replica ∈ (commitStates acked (earlier ++ [pair]) table).value.2.get? pair.1,
          replica.covers pair.2 := by
  induction states generalizing table with
  | nil => simp [commitStates]
  | cons first rest ih =>
    obtain ⟨carried, version⟩ := first
    rw [forall_place_cons]
    cases held : table.get? carried with
    | none =>
      simp only [commitStates, held, List.nil_append, List.cons_append, Noted.value_pure]
      rw [ih keyed sound]
      simp
    | some replica =>
      have known := sound carried replica held
      have netId : (replica.commit version).2.netId = carried :=
        (Replica.commit_confirms known version).netId.trans (keyed carried replica held)
      simp only [commitStates, held, List.nil_append, List.cons_append, Noted.value_bind,
        Noted.value_pure, Bool.and_eq_true]
      rw [ih (keyed.put _) (sound.put (Replica.commit_sound known version)),
        Replica.commit_isSettled known, and_comm, get?_put, if_pos netId]
      simp

end ReplicaTable

/-- For every table that operations lead to and whatever a message carried, it is called settled
exactly if every version was reached by what stands before it in the message, and every object has a
baseline at or past what was carried exactly if every version is reached by the whole message. The
first implies the second, and follows from it if no object is carried twice. -/
theorem ReplicaTable.settled_iff_reached_in_order {table : ReplicaTable} (reach : table.Reachable)
    (record : SentRecord) :
    let result := (table.commit record).value
    (result.1.settled ↔ ∀ earlier pair, earlier ++ [pair] <+: record.states →
      ∀ replica ∈ table.get? pair.1,
        replica.Reaches (fun version => (pair.1, version) ∈ earlier ++ [pair]) pair.2) ∧
    (result.2.settles record.states ↔ ∀ pair ∈ record.states, ∀ replica ∈ table.get? pair.1,
      replica.Reaches (fun version => (pair.1, version) ∈ record.states) pair.2) ∧
    (result.1.settled → result.2.settles record.states) ∧
    ((record.states.map Prod.fst).Nodup → result.2.settles record.states → result.1.settled) := by
  intro result
  obtain ⟨keyed, sound⟩ := reach.sound
  have inOrder : result.1.settled ↔ ∀ earlier pair, earlier ++ [pair] <+: record.states →
      ∀ replica ∈ table.get? pair.1,
        replica.Reaches (fun version => (pair.1, version) ∈ earlier ++ [pair]) pair.2 := by
    refine (commitStates_settled_iff keyed sound).trans ?_
    exact forall_congr' fun earlier => forall_congr' fun pair => forall_congr' fun _ =>
      covers_commitStates keyed sound pair
  have together : result.2.settles record.states ↔ ∀ pair ∈ record.states,
      ∀ replica ∈ table.get? pair.1,
        replica.Reaches (fun version => (pair.1, version) ∈ record.states) pair.2 :=
    settles_iff.trans <| forall_congr' fun pair => forall_congr' fun _ =>
      covers_commitStates keyed sound pair
  refine ⟨inOrder, together, fun settled => together.2 ?_, fun distinct settles => inOrder.2 ?_⟩
  · intro pair hp replica held
    obtain ⟨earlier, later, split⟩ := List.append_of_mem hp
    have front : earlier ++ [pair] <+: record.states := ⟨later, by simp [split]⟩
    exact (inOrder.1 settled earlier pair front replica held).mono fun _ he => front.subset he
  · intro earlier pair front replica held
    have hp : pair ∈ record.states := front.subset (by simp)
    refine (together.1 settles pair hp replica held).mono fun version he => ?_
    have same : (pair.1, version) = pair := List.inj_on_of_nodup_map distinct he hp rfl
    simp [same]

namespace Session

/-- Two ticks go out in one message, but the history of an object holds a single version. -/
def doubled : List (Link × Call) :=
  undisturbed [sightings 1 [7], .endFrame 1, sightings 2 [7], .endFrame 2, .endBlock]

def doubledState : Session :=
  (play doubled (new ⟨⟨.one, .one, .one⟩⟩ { historyCapacity := 1 })).value

def doubledRecord : SentRecord := { id := 0, sentAt := 0, states := [(1, 1), (1, 2)], echoed := [] }

set_option maxRecDepth 4000 in
/-- With the versions the other way round, the later one covers the one that is no longer held. -/
theorem settled_iff_reached_in_order_reversed :
    let record := { doubledRecord with states := [(1, 2), (1, 1)] }
    doubledState.table.Reachable ∧ (doubledState.table.commit record).value.1.settled ∧
      (doubledState.table.commit record).value.2.settles record.states := by
  intro record
  have reach : doubledState.table.Reachable := play_reachable _ _ doubled
  have settled : (doubledState.table.commit record).value.1.settled := by decide_cbv
  exact ⟨reach, settled, (ReplicaTable.settled_iff_reached_in_order reach record).2.2.1 settled⟩

set_option maxRecDepth 4000 in
/-- In the end the baseline is past both versions, and still the message is not called settled. -/
theorem covered_versions_unsettled : doubledState.table.Reachable ∧
    doubledState.outbox.outstanding[(0 : MessageId)]? = some doubledRecord ∧
      (doubledState.table.commit doubledRecord).value.2.settles doubledRecord.states ∧
      (doubledState.table.commit doubledRecord).value.1.settled = false :=
  ⟨play_reachable _ _ doubled, by decide_cbv, by decide_cbv, by decide_cbv⟩

end Session

end AreaReplication
