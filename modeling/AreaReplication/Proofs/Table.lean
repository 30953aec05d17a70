import AreaReplication.Proofs.Replica
import AreaReplication.Replica.Table
import Mathlib.Data.List.Sort

/-!
# What an acknowledged message does to the objects

Confirming the versions that a message carried touches only objects that it carried, moves their
baselines up, and is called settled only if all of them end up at or past what was carried.
-/
namespace AreaReplication.ReplicaTable

@[simp] theorem get?_put (table : ReplicaTable) (replica : Replica) (id : NetId) :
    (table.put replica).get? id = if replica.netId = id then some replica else table.get? id := by
  simp [get?, put, Std.ExtTreeMap.getElem?_insert]

@[simp] theorem get?_erase (table : ReplicaTable) (gone id : NetId) :
    (table.erase gone).get? id = if gone = id then none else table.get? id := by
  simp [get?, erase, Std.ExtTreeMap.getElem?_erase]

theorem get?_empty (historyCapacity : Nat) (id : NetId) (replica : Replica) :
    ({ historyCapacity } : ReplicaTable).get? id ≠ some replica := by
  simp [get?]

theorem get?_put_some {table : ReplicaTable} {replica other : Replica} {id : NetId}
    (held : (table.put replica).get? id = some other) :
    (id = replica.netId ∧ other = replica) ∨
      (id ≠ replica.netId ∧ table.get? id = some other) := by
  rw [get?_put] at held
  split_ifs at held with hid
  · exact .inl ⟨hid.symm, (Option.some.inj held).symm⟩
  · exact .inr ⟨Ne.symm hid, held⟩

theorem get?_erase_some {table : ReplicaTable} {gone id : NetId} {other : Replica}
    (held : (table.erase gone).get? id = some other) :
    id ≠ gone ∧ table.get? id = some other := by
  rw [get?_erase] at held
  split_ifs at held with hid
  exact ⟨Ne.symm hid, held⟩

/-- Every replica stands under its own network id. -/
def Keyed (table : ReplicaTable) : Prop :=
  ∀ id replica, table.get? id = some replica → replica.netId = id

/-- The versions of every replica are in order. -/
def Sound (table : ReplicaTable) : Prop :=
  ∀ id replica, table.get? id = some replica → replica.Sound

theorem Keyed.put {table : ReplicaTable} (h : table.Keyed) (replica : Replica) :
    (table.put replica).Keyed := by
  intro id other ho
  rcases get?_put_some ho with ⟨rfl, rfl⟩ | ⟨_, ho⟩
  · rfl
  · exact h id other ho

theorem Sound.put {table : ReplicaTable} (h : table.Sound) {replica : Replica}
    (hr : replica.Sound) : (table.put replica).Sound := by
  intro id other ho
  rcases get?_put_some ho with ⟨rfl, rfl⟩ | ⟨_, ho⟩
  · exact hr
  · exact h id other ho

theorem Keyed.erase {table : ReplicaTable} (h : table.Keyed) (gone : NetId) :
    (table.erase gone).Keyed :=
  fun id other ho => h id other (get?_erase_some ho).2

theorem Sound.erase {table : ReplicaTable} (h : table.Sound) (gone : NetId) :
    (table.erase gone).Sound :=
  fun id other ho => h id other (get?_erase_some ho).2

theorem getOrNew_of_some {table : ReplicaTable} {id : NetId} {replica : Replica}
    (held : table.get? id = some replica) (entity : EntityId) :
    table.getOrNew id entity = replica := by
  rw [ReplicaTable.getOrNew, held, Option.getD_some]

theorem getOrNew_of_none {table : ReplicaTable} {id : NetId} (free : table.get? id = none)
    (entity : EntityId) : table.getOrNew id entity = .new id entity table.historyCapacity := by
  rw [ReplicaTable.getOrNew, free, Option.getD_none]

theorem Sound.getOrNew {table : ReplicaTable} (h : table.Sound) (id : NetId) (entity : EntityId) :
    (table.getOrNew id entity).Sound := by
  cases hg : table.get? id with
  | none =>
    rw [getOrNew_of_none hg]
    exact Replica.new_sound _ _ _
  | some replica =>
    rw [getOrNew_of_some hg]
    exact h id replica hg

theorem Keyed.getOrNew {table : ReplicaTable} (h : table.Keyed) (id : NetId) (entity : EntityId) :
    (table.getOrNew id entity).netId = id := by
  cases hg : table.get? id with
  | none => rw [getOrNew_of_none hg, Replica.new]
  | some replica =>
    rw [getOrNew_of_some hg]
    exact h id replica hg

theorem mem_toList {table : ReplicaTable} (h : table.Keyed) {replica : Replica} :
    replica ∈ table.toList ↔ table.get? replica.netId = some replica := by
  simp only [toList, List.mem_map, Prod.exists, exists_eq_right,
    Std.ExtTreeMap.mem_toList_iff_getElem?_eq_some]
  constructor
  · rintro ⟨id, hid⟩
    rw [h id replica hid]
    exact hid
  · exact fun held => ⟨_, held⟩

theorem toList_netIds {table : ReplicaTable} (h : table.Keyed) :
    table.toList.map Replica.netId = table.replicas.keys := by
  rw [toList, List.map_map, ← Std.ExtTreeMap.map_fst_toList_eq_keys]
  refine List.map_congr_left fun entry he => ?_
  exact h entry.1 entry.2 (Std.ExtTreeMap.mem_toList_iff_getElem?_eq_some.1 he)

theorem toList_distinct {table : ReplicaTable} (h : table.Keyed) :
    (table.toList.map Replica.netId).Nodup := by
  rw [toList_netIds h]
  exact Std.ExtTreeMap.nodup_keys

theorem keys_ascending (table : ReplicaTable) : table.replicas.keys.Pairwise (· < ·) := by
  have ordered : table.replicas.keys.Pairwise fun one other => compare one other = .lt :=
    Std.ExtTreeMap.ordered_keys
  exact ordered.imp fun h => Std.compare_eq_lt.1 h

theorem mem_keys {table : ReplicaTable} {id : NetId} :
    id ∈ table.replicas.keys ↔ (table.get? id).isSome := by
  rw [Std.ExtTreeMap.mem_keys, get?, Std.ExtTreeMap.mem_iff_isSome_getElem?]

theorem keys_eq {one other : ReplicaTable}
    (same : ∀ id, (one.get? id).isSome = (other.get? id).isSome) :
    one.replicas.keys = other.replicas.keys := by
  refine one.keys_ascending.eq_of_mem_iff other.keys_ascending fun id => ?_
  rw [mem_keys, mem_keys, same]

def tracks (table : ReplicaTable) (entity : EntityId) (id : NetId) : Bool :=
  (table.get? id).any fun replica => replica.entity = entity

theorem tracks_iff {table : ReplicaTable} {entity : EntityId} {id : NetId} :
    table.tracks entity id ↔ ∃ replica, table.get? id = some replica ∧ replica.entity = entity := by
  simp [tracks, Option.any_eq_true]

/-- `after` holds the objects of `before`, each once some of the given versions have been
confirmed. -/
structure Confirms (states : List (NetId × Version)) (before after : ReplicaTable) : Prop where
  capacity : after.historyCapacity = before.historyCapacity
  same : ∀ id, (after.get? id).isSome = (before.get? id).isSome
  replica : ∀ id old new, before.get? id = some old → after.get? id = some new →
    old.Confirms (fun version => (id, version) ∈ states) new

theorem Confirms.back {states : List (NetId × Version)} {before after : ReplicaTable}
    (h : Confirms states before after) {id : NetId} {new : Replica}
    (hn : after.get? id = some new) : ∃ old, before.get? id = some old ∧
      old.Confirms (fun version => (id, version) ∈ states) new := by
  have hs := h.same id
  rw [hn, Option.isSome_some] at hs
  obtain ⟨old, ho⟩ := Option.isSome_iff_exists.1 hs.symm
  exact ⟨old, ho, h.replica id old new ho hn⟩

theorem Confirms.tracks {states : List (NetId × Version)} {before after : ReplicaTable}
    (h : Confirms states before after) {entity : EntityId} {id : NetId}
    (tracked : before.tracks entity id) : after.tracks entity id := by
  obtain ⟨old, ho, rfl⟩ := tracks_iff.1 tracked
  have same := h.same id
  rw [ho, Option.isSome_some] at same
  obtain ⟨new, hn⟩ := Option.isSome_iff_exists.1 same
  exact tracks_iff.2 ⟨new, hn, (h.replica id old new ho hn).entity⟩

variable {table : ReplicaTable} {acked : MessageId} {states : List (NetId × Version)}

theorem commitStates_keeps (hk : table.Keyed) (hs : table.Sound) :
    (commitStates acked states table).value.2.Keyed ∧
      (commitStates acked states table).value.2.Sound ∧
      Confirms states table (commitStates acked states table).value.2 := by
  induction states generalizing table with
  | nil => exact ⟨hk, hs, rfl, fun _ => rfl, fun id old new ho hn => by
      obtain rfl : old = new := Option.some.inj (ho.symm.trans hn)
      exact .refl _ _⟩
  | cons pair rest ih =>
    obtain ⟨carried, version⟩ := pair
    simp only [commitStates]
    cases hg : table.get? carried with
    | none =>
      obtain ⟨hk', hs', hc⟩ := ih hk hs
      refine ⟨hk', hs', hc.capacity, hc.same, fun id old new ho hn => ?_⟩
      exact (hc.replica id old new ho hn).mono fun _ hm => List.mem_cons_of_mem _ hm
    | some replica =>
      have hr := hs carried replica hg
      have hid : (replica.commit version).2.netId = carried :=
        (Replica.commit_confirms hr version).netId.trans (hk carried replica hg)
      obtain ⟨hk', hs', hc⟩ := ih (hk.put (replica.commit version).2)
        (hs.put (Replica.commit_sound hr version))
      refine ⟨hk', hs', hc.capacity, fun id => (hc.same id).trans ?_, fun id old new ho hn => ?_⟩
      · rw [get?_put, hid]
        split_ifs with h
        · rw [← h, hg]
          rfl
        · rfl
      · obtain ⟨middle, hm, hafter⟩ := hc.back hn
        have hafter := hafter.mono fun v hv => List.mem_cons_of_mem (carried, version) hv
        rw [get?_put, hid] at hm
        split_ifs at hm with h
        · subst h
          obtain rfl : replica = old := Option.some.inj (hg.symm.trans ho)
          obtain rfl := Option.some.inj hm
          refine ((Replica.commit_confirms hr version).mono ?_).trans hafter
          rintro v rfl
          exact List.mem_cons_self
        · obtain rfl : old = middle := Option.some.inj (ho.symm.trans hm)
          exact hafter

/-- If confirming a message is called settled, every carried object that is still there has a
baseline at or past the carried version. -/
theorem commitStates_settled (hk : table.Keyed) (hs : table.Sound)
    (settled : (commitStates acked states table).value.1.settled) :
    ∀ pair ∈ states, ∀ replica,
      (commitStates acked states table).value.2.get? pair.1 = some replica →
      ∃ base, replica.baseline = some base ∧ pair.2 ≤ base.version := by
  induction states generalizing table with
  | nil => simp
  | cons pair rest ih =>
    obtain ⟨carried, version⟩ := pair
    simp only [commitStates] at settled ⊢
    cases hg : table.get? carried with
    | none =>
      simp only [hg] at settled ⊢
      intro other ho new hn
      rcases List.mem_cons.1 ho with rfl | ho
      · obtain ⟨old, hold, _⟩ := (commitStates_keeps hk hs).2.2.back hn
        rw [hg] at hold
        cases hold
      · exact ih hk hs settled other ho new hn
    | some replica =>
      have hr := hs carried replica hg
      have hid : (replica.commit version).2.netId = carried :=
        (Replica.commit_confirms hr version).netId.trans (hk carried replica hg)
      have hk' := hk.put (replica.commit version).2
      have hs' := hs.put (Replica.commit_sound hr version)
      simp only [hg, Noted.value_bind, Noted.value_pure, Bool.and_eq_true] at settled ⊢
      intro other ho new hn
      rcases List.mem_cons.1 ho with rfl | ho
      · obtain ⟨old, hold, hc⟩ := (commitStates_keeps hk' hs').2.2.back hn
        rw [get?_put, if_pos hid] at hold
        obtain rfl := Option.some.inj hold
        obtain ⟨base, hb, hle⟩ := Replica.commit_settled hr settled.2
        obtain ⟨risen, hrisen, hle'⟩ := hc.rises base hb
        exact ⟨risen, hrisen, UInt64.le_trans hle hle'⟩
      · exact ih hk' hs' settled.1 other ho new hn

theorem commitStates_events {event : Event}
    (he : event ∈ (commitStates acked states table).events) :
    ∃ id version, event = .versionLost id version acked := by
  induction states generalizing table with
  | nil => simp [commitStates] at he
  | cons pair rest ih =>
    obtain ⟨carried, version⟩ := pair
    simp only [commitStates] at he
    cases hg : table.get? carried with
    | none =>
      simp only [hg] at he
      exact ih he
    | some replica =>
      simp only [hg, Noted.events_bind, Noted.events_pure, List.append_nil, List.mem_append] at he
      rcases he with he | he
      · simp only [noteIf] at he
        split_ifs at he
        · exact ⟨carried, version, List.mem_singleton.1 he⟩
        · simp at he
      · exact ih he

end AreaReplication.ReplicaTable
