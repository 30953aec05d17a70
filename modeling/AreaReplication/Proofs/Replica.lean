import AreaReplication.Proofs.History
import AreaReplication.Replica.Basic
import Mathlib.Data.List.TakeWhile

/-!
# The snapshots of a replica

What each operation of a replica does to its current snapshot and to those the client may still
confirm, and the order of their versions. Times are arbitrary here: no operation relies on its
caller to count upwards.
-/
namespace AreaReplication.Replica

/-- The baseline and the snapshots that may become it. -/
def kept (replica : Replica) : List Snapshot :=
  replica.baseline.toList ++ replica.history.entries.map (·.2)

/-- The versions of a replica are in order: the baseline is below the history, which falls from its
newest entry on, and nothing is above the current version. -/
structure Sound (replica : Replica) : Prop where
  named : ∀ entry ∈ replica.history.entries, entry.2.version = entry.1
  falling : replica.history.entries.Pairwise fun newer older => older.1 < newer.1
  entry_le : ∀ entry ∈ replica.history.entries, entry.1 ≤ replica.version
  baseline_le : ∀ base, replica.baseline = some base → base.version ≤ replica.version
  above : ∀ base, replica.baseline = some base →
    ∀ entry ∈ replica.history.entries, base.version < entry.1

theorem mem_kept {replica : Replica} {snapshot : Snapshot} :
    snapshot ∈ replica.kept ↔ replica.baseline = some snapshot ∨
      ∃ entry ∈ replica.history.entries, entry.2 = snapshot := by
  simp [kept, Option.mem_toList]

theorem new_sound (netId : NetId) (entity : EntityId) (capacity : Nat) :
    Sound (new netId entity capacity) := by
  constructor <;> simp [new, History.ofCapacity]

theorem new_kept (netId : NetId) (entity : EntityId) (capacity : Nat) :
    (new netId entity capacity).kept = [] := by
  simp [kept, new, History.ofCapacity]

/-- Everything kept is at or past the baseline. -/
theorem Sound.baseline_le_kept {replica : Replica} (h : Sound replica) {base snapshot : Snapshot}
    (hb : replica.baseline = some base) (hk : snapshot ∈ replica.kept) :
    base.version ≤ snapshot.version := by
  rcases mem_kept.1 hk with hs | ⟨entry, he, rfl⟩
  · obtain rfl : base = snapshot := Option.some.inj (hb.symm.trans hs)
    exact UInt64.le_rfl
  · rw [h.named entry he]
    exact UInt64.le_of_lt (h.above base hb entry he)

/-- `after` is `before` with its current snapshot changed, and maybe started over: nothing was
sent or confirmed in between. -/
structure Follows (before after : Replica) : Prop where
  netId : after.netId = before.netId
  entity : after.entity = before.entity
  baseline : ∀ base, after.baseline = some base → before.baseline = some base
  kept : ∀ snapshot ∈ after.kept, snapshot ∈ before.kept

theorem Follows.refl (replica : Replica) : Follows replica replica :=
  ⟨rfl, rfl, fun _ h => h, fun _ h => h⟩

theorem Follows.trans {a b c : Replica} (h : Follows a b) (k : Follows b c) : Follows a c :=
  ⟨k.netId.trans h.netId, k.entity.trans h.entity,
    fun base hb => h.baseline base (k.baseline base hb),
    fun s hs => h.kept s (k.kept s hs)⟩

theorem revive_follows (replica : Replica) : Follows replica replica.revive := by
  unfold revive
  split_ifs
  · exact .refl replica
  · constructor <;> simp [kept, History.clear]
  · exact ⟨rfl, rfl, fun _ h => h, fun _ h => h⟩

theorem revive_version (replica : Replica) : replica.revive.version = replica.version := by
  unfold revive
  split_ifs <;> rfl

theorem revive_sound {replica : Replica} (h : Sound replica) : Sound replica.revive := by
  unfold revive
  split_ifs
  · exact h
  · constructor <;> simp [History.clear]
  · exact ⟨h.named, h.falling, h.entry_le, h.baseline_le, h.above⟩

/-- A later current snapshot keeps the versions in order. -/
theorem Sound.advance {replica : Replica} (h : Sound replica) {current : Snapshot}
    (hc : replica.version ≤ current.version) (lastZone : Option Zone) (removal : Removal) :
    Sound { replica with current, lastZone, removal } where
  named := h.named
  falling := h.falling
  entry_le entry he := UInt64.le_trans (h.entry_le entry he) hc
  baseline_le base hb := UInt64.le_trans (h.baseline_le base hb) hc
  above := h.above

section Update

variable (replica : Replica) (time : Time) (zone : Zone) (zoneId : UInt32) (position : Vec3)
  (rotation : Quat)

/-- A stale update changes nothing, any other one is the current snapshot from then on. -/
theorem update_current : let updated := (replica.update time zone zoneId position rotation).value.2
    (updated = replica ∧ time < replica.version) ∨
      (updated.current = { version := time, zoneId, position, rotation } ∧
        replica.version ≤ time) := by
  unfold update
  split_ifs with h
  · exact .inl ⟨rfl, h⟩
  · exact .inr ⟨rfl, by simpa using h⟩

theorem update_follows :
    Follows replica (replica.update time zone zoneId position rotation).value.2 := by
  unfold update
  split_ifs
  · exact .refl replica
  · exact (revive_follows replica).trans ⟨rfl, rfl, fun _ h => h, fun _ h => h⟩

variable {replica} {time}

variable {zone zoneId position rotation} in
theorem update_eq (fresh : replica.version ≤ time) :
    (replica.update time zone zoneId position rotation).value.2 = { replica.revive with
      current := { version := time, zoneId, position, rotation, removed := false }
      lastZone := some zone } := by
  rw [update, if_neg (UInt64.not_lt.2 fresh)]
  rfl

variable (time)

theorem update_sound (h : Sound replica) :
    Sound (replica.update time zone zoneId position rotation).value.2 := by
  unfold update
  split_ifs with hs
  · exact h
  · refine (revive_sound h).advance ?_ _ _
    rw [revive_version]
    simpa using hs

end Update

section Withstanding

variable {replica : Replica} {time : Time} {zone : Zone}

/-- The object does not take a removal over. -/
def Withstands (replica : Replica) (time : Time) (zone : Zone) : Prop :=
  replica.crossedFrom time zone ∨ replica.removal ≠ .active ∨ time < replica.version

theorem not_withstands : ¬ replica.Withstands time zone ↔
    replica.crossedFrom time zone = false ∧ replica.removal = .active ∧ replica.version ≤ time := by
  simp [Withstands]

theorem Withstands.removeFrom (h : replica.Withstands time zone) :
    (replica.removeFrom time zone).2 = replica := by
  unfold Replica.removeFrom
  by_cases crossed : replica.crossedFrom time zone
  · rw [if_pos crossed]
  · rw [if_neg crossed, remove, if_pos (h.resolve_left crossed)]

theorem removeFrom_of_not (h : ¬ replica.Withstands time zone) :
    (replica.removeFrom time zone).2 = { replica with
      current := { replica.current with version := time, removed := true }
      lastZone := some zone
      removal := .marked } := by
  obtain ⟨crossed, other⟩ := not_or.1 h
  rw [Replica.removeFrom, if_neg crossed, remove, if_neg other]

end Withstanding

section Removal

variable (replica : Replica) (time : Time) (zone : Zone)

/-- What a removal leaves: the object as it was, or its removal at `time`. -/
theorem remove_cases :
    replica.remove time = (false, replica) ∨
      (replica.removal = .active ∧ replica.version ≤ time ∧
        replica.remove time = (true, { replica with
          current := { replica.current with version := time, removed := true }
          removal := .marked })) := by
  unfold remove
  split_ifs with h
  · exact .inl rfl
  · obtain ⟨ha, hv⟩ := not_or.1 h
    exact .inr ⟨by simpa using ha, by simpa using hv, rfl⟩

theorem removeFrom_cases :
    (replica.removeFrom time zone).2 = replica ∨
      (replica.version ≤ time ∧ (replica.removeFrom time zone).2 =
        { replica with
          current := { replica.current with version := time, removed := true }
          lastZone := some zone
          removal := .marked }) := by
  by_cases still : replica.Withstands time zone
  · exact .inl still.removeFrom
  · obtain ⟨-, -, fresh⟩ := not_withstands.1 still
    exact .inr ⟨fresh, removeFrom_of_not still⟩

theorem expire_cases :
    (replica.expire time).2 = replica ∨
      (replica.version < time ∧ (replica.expire time).2 =
        { replica with
          current := { replica.current with version := time, removed := true }
          removal := .marked }) := by
  unfold expire
  split_ifs with he
  · rcases replica.remove_cases time with h | ⟨_, _, h⟩
    · exact .inl (by rw [h])
    · exact .inr ⟨he.2, by rw [h]⟩
  · exact .inl rfl

theorem removeFrom_follows : Follows replica (replica.removeFrom time zone).2 := by
  rcases replica.removeFrom_cases time zone with h | ⟨_, h⟩
  · rw [h]; exact .refl replica
  · rw [h]; exact ⟨rfl, rfl, fun _ h => h, fun _ h => h⟩

theorem expire_follows : Follows replica (replica.expire time).2 := by
  rcases replica.expire_cases time with h | ⟨_, h⟩
  · rw [h]; exact .refl replica
  · rw [h]; exact ⟨rfl, rfl, fun _ h => h, fun _ h => h⟩

theorem advanceRemoval_follows : Follows replica (replica.advanceRemoval time) := by
  unfold advanceRemoval
  split_ifs
  · exact ⟨rfl, rfl, fun _ h => h, fun _ h => h⟩
  · exact .refl replica

theorem advanceRemoval_current : (replica.advanceRemoval time).current = replica.current := by
  unfold advanceRemoval
  split_ifs <;> rfl

variable {replica}

theorem removeFrom_sound (h : Sound replica) : Sound (replica.removeFrom time zone).2 := by
  rcases replica.removeFrom_cases time zone with he | ⟨hv, he⟩
  · rw [he]; exact h
  · rw [he]; exact h.advance hv _ _

theorem expire_sound (h : Sound replica) : Sound (replica.expire time).2 := by
  rcases replica.expire_cases time with he | ⟨hv, he⟩
  · rw [he]; exact h
  · rw [he]; exact h.advance (UInt64.le_of_lt hv) _ _

theorem advanceRemoval_sound (h : Sound replica) : Sound (replica.advanceRemoval time) := by
  unfold advanceRemoval
  split_ifs
  · exact ⟨h.named, h.falling, h.entry_le, h.baseline_le, h.above⟩
  · exact h

end Removal

section Emission

variable {replica : Replica}

theorem recordCurrent_entries {entry : Version × Snapshot}
    (he : entry ∈ replica.recordCurrent.value.history.entries) :
    entry ∈ replica.history.entries ∨ entry = (replica.version, replica.current) := by
  have pushed : ∀ entry ∈ (replica.history.push replica.version replica.current).entries,
      entry ∈ replica.history.entries ∨ entry = (replica.version, replica.current) := by
    intro entry he
    simp only [History.push, List.mem_cons] at he
    rcases he with rfl | he
    · exact .inr rfl
    · split_ifs at he
      · exact .inl he
      · exact .inl (List.mem_of_mem_take he)
  unfold recordCurrent at he
  split_ifs at he
  · exact .inl he
  · rcases replica.history.insert_cases replica.version replica.current with
      ⟨last, -, -, refused⟩ | ⟨-, taken⟩
    · rw [refused] at he
      exact .inl he
    · rw [taken] at he
      exact pushed entry he

theorem Sound.last_le (h : Sound replica) {last : Version}
    (hl : replica.history.lastVersion = some last) :
    last ≤ replica.version ∧ ∀ entry ∈ replica.history.entries, entry.1 ≤ last := by
  obtain ⟨newest, first, rfl⟩ := Option.map_eq_some_iff.1 hl
  refine ⟨h.entry_le newest (List.mem_of_mem_head? first), ?_⟩
  intro entry hm
  exact History.le_last h.falling hl hm

/-- The history takes the current snapshot whenever it is not recorded yet: it never refuses. -/
theorem Sound.recordCurrent_eq (h : Sound replica) (hr : replica.isRecorded = false) :
    replica.recordCurrent.value =
        { replica with history := replica.history.push replica.version replica.current } ∧
      ∀ entry ∈ replica.history.entries, entry.1 < replica.version := by
  simp only [isRecorded, Bool.or_eq_false_iff, decide_eq_false_iff_not] at hr
  simp only [recordCurrent, isRecorded, History.insert, hr, decide_false, Bool.or_self,
    Bool.false_eq_true, if_false]
  cases hl : replica.history.lastVersion with
  | none =>
    have he : replica.history.entries = [] := by
      simpa [History.lastVersion] using hl
    exact ⟨rfl, by simp [he]⟩
  | some last =>
    obtain ⟨hle, hbelow⟩ := h.last_le hl
    have hlt : last < replica.version :=
      UInt64.lt_of_le_of_ne hle fun he => hr.1 (by rw [hl, he])
    have hn : ¬ replica.version ≤ last := by simpa using hlt
    simp only [hn, if_false]
    exact ⟨rfl, fun entry he => UInt64.lt_of_le_of_lt (hbelow entry he) hlt⟩

theorem recordCurrent_sound (h : Sound replica) : Sound replica.recordCurrent.value := by
  cases hr : replica.isRecorded with
  | true =>
    simpa [recordCurrent, hr] using h
  | false =>
    obtain ⟨he, hlt⟩ := h.recordCurrent_eq hr
    rw [he]
    have hsub : ((replica.history.push replica.version replica.current).entries.tail).Sublist
        replica.history.entries := by
      simp only [History.push, List.tail_cons]
      split_ifs
      · exact List.Sublist.refl _
      · exact List.take_sublist _ _
    constructor
    · intro entry hm
      rcases List.mem_cons.1 hm with rfl | hm
      · rfl
      · exact h.named entry (hsub.subset hm)
    · refine List.pairwise_cons.2 ⟨fun entry hm => hlt entry (hsub.subset hm), ?_⟩
      exact h.falling.sublist hsub
    · intro entry hm
      rcases List.mem_cons.1 hm with rfl | hm
      · exact UInt64.le_rfl
      · exact h.entry_le entry (hsub.subset hm)
    · exact h.baseline_le
    · intro base hb entry hm
      rcases List.mem_cons.1 hm with rfl | hm
      · refine UInt64.lt_of_le_of_ne (h.baseline_le base hb) ?_
        rintro hv
        have hv : replica.baselineVersion = some replica.version :=
          Option.map_eq_some_iff.2 ⟨base, hb, hv⟩
        simp [isRecorded, hv] at hr
      · exact h.above base hb entry (hsub.subset hm)

variable (replica) (time : Time)

theorem recordCurrent_fields : replica.recordCurrent.value.netId = replica.netId ∧
    replica.recordCurrent.value.entity = replica.entity ∧
    replica.recordCurrent.value.current = replica.current ∧
    replica.recordCurrent.value.baseline = replica.baseline ∧
    replica.recordCurrent.value.removal = replica.removal := by
  unfold recordCurrent
  split_ifs
  · exact ⟨rfl, rfl, rfl, rfl, rfl⟩
  · split <;> exact ⟨rfl, rfl, rfl, rfl, rfl⟩

@[simp] theorem delta_netId : replica.delta.netId = replica.netId := by
  unfold delta
  split <;> rfl

@[simp] theorem delta_version : replica.delta.version = replica.version := by
  unfold delta
  split <;> rfl

@[simp] theorem delta_baseline : replica.delta.baseline = replica.baselineVersion := by
  unfold delta baselineVersion
  split
  · next h => rw [h]; rfl
  · next base h => rw [h]; rfl

@[simp] theorem delta_removed : replica.delta.removed = replica.current.removed := by
  unfold delta
  split <;> rfl

@[simp] theorem emit_state : (replica.emit time).value.1 = replica.delta := rfl

@[simp] theorem emit_netId : (replica.emit time).value.2.netId = replica.netId :=
  replica.recordCurrent_fields.1

@[simp] theorem emit_entity : (replica.emit time).value.2.entity = replica.entity :=
  replica.recordCurrent_fields.2.1

@[simp] theorem emit_current : (replica.emit time).value.2.current = replica.current :=
  replica.recordCurrent_fields.2.2.1

@[simp] theorem emit_baseline : (replica.emit time).value.2.baseline = replica.baseline :=
  replica.recordCurrent_fields.2.2.2.1

@[simp] theorem emit_removal : (replica.emit time).value.2.removal = replica.removal :=
  replica.recordCurrent_fields.2.2.2.2

variable {replica} {time}

theorem emit_kept {snapshot : Snapshot} (hk : snapshot ∈ (replica.emit time).value.2.kept) :
    snapshot ∈ replica.kept ∨ snapshot = replica.current := by
  rcases mem_kept.1 hk with hb | ⟨entry, he, rfl⟩
  · exact .inl (mem_kept.2 (.inl (by simpa using hb)))
  · rcases recordCurrent_entries he with he | rfl
    · exact .inl (mem_kept.2 (.inr ⟨entry, he, rfl⟩))
    · exact .inr rfl

theorem emit_sound (h : Sound replica) : Sound (replica.emit time).value.2 :=
  have hr := recordCurrent_sound h
  ⟨hr.named, hr.falling, hr.entry_le, hr.baseline_le, hr.above⟩

end Emission

section Confirmation

/-- `after` is `before` once some versions satisfying `confirmed` have been confirmed. -/
structure Confirms (confirmed : Version → Prop) (before after : Replica) : Prop where
  netId : after.netId = before.netId
  entity : after.entity = before.entity
  current : after.current = before.current
  entries : ∀ entry ∈ after.history.entries, entry ∈ before.history.entries
  baseline : after.baseline = before.baseline ∨ ∃ version snapshot, confirmed version ∧
    (version, snapshot) ∈ before.history.entries ∧ after.baseline = some snapshot
  rises : ∀ base, before.baseline = some base →
    ∃ risen, after.baseline = some risen ∧ base.version ≤ risen.version
  removal : after.removal = before.removal
  removalSentAt : after.removalSentAt = before.removalSentAt

theorem Confirms.refl (confirmed : Version → Prop) (replica : Replica) :
    Confirms confirmed replica replica :=
  ⟨rfl, rfl, rfl, fun _ h => h, .inl rfl, fun base hb => ⟨base, hb, UInt64.le_rfl⟩, rfl, rfl⟩

theorem Confirms.trans {confirmed : Version → Prop} {a b c : Replica}
    (h : Confirms confirmed a b) (k : Confirms confirmed b c) : Confirms confirmed a c where
  netId := k.netId.trans h.netId
  entity := k.entity.trans h.entity
  current := k.current.trans h.current
  entries entry he := h.entries entry (k.entries entry he)
  baseline := by
    rcases k.baseline with hk | ⟨version, snapshot, hv, he, hk⟩
    · rw [hk]
      exact h.baseline
    · exact .inr ⟨version, snapshot, hv, h.entries _ he, hk⟩
  rises base hb := by
    obtain ⟨risen, hr, hle⟩ := h.rises base hb
    obtain ⟨higher, hh, hle'⟩ := k.rises risen hr
    exact ⟨higher, hh, UInt64.le_trans hle hle'⟩
  removal := k.removal.trans h.removal
  removalSentAt := k.removalSentAt.trans h.removalSentAt

theorem Confirms.mono {p q : Version → Prop} (hpq : ∀ version, p version → q version)
    {before after : Replica} (h : Confirms p before after) : Confirms q before after :=
  { h with baseline := h.baseline.imp_right fun ⟨version, snapshot, hv, he⟩ =>
      ⟨version, snapshot, hpq version hv, he⟩ }

theorem Confirms.kept {confirmed : Version → Prop} {before after : Replica}
    (h : Confirms confirmed before after) {snapshot : Snapshot} (hk : snapshot ∈ after.kept) :
    snapshot ∈ before.kept := by
  rcases mem_kept.1 hk with hb | ⟨entry, he, rfl⟩
  · rcases h.baseline with hs | ⟨version, taken, _, he, hs⟩
    · exact mem_kept.2 (.inl (hs ▸ hb))
    · obtain rfl : taken = snapshot := Option.some.inj (hs.symm.trans hb)
      exact mem_kept.2 (.inr ⟨_, he, rfl⟩)
  · exact mem_kept.2 (.inr ⟨entry, h.entries entry he, rfl⟩)

variable {replica : Replica} {version : Version}

theorem get?_mem {history : History Snapshot} {snapshot : Snapshot}
    (hg : history.get? version = some snapshot) : (version, snapshot) ∈ history.entries := by
  obtain ⟨entry, hf, rfl⟩ := Option.map_eq_some_iff.1 hg
  obtain rfl : entry.1 = version := by simpa using List.find?_some hf
  exact List.mem_of_find?_eq_some hf

/-- Confirming a version finds it covered, takes it from the history, or finds it gone. -/
theorem commit_cases (replica : Replica) (version : Version) :
    (∃ base, replica.baseline = some base ∧ version ≤ base.version ∧
        replica.commit version = (.covered, replica)) ∨
      (∃ snapshot, (version, snapshot) ∈ replica.history.entries ∧
        (∀ base, replica.baseline = some base → base.version < version) ∧
        replica.commit version = (.moved, { replica with
          baseline := some snapshot, history := replica.history.dropThrough version })) ∨
      replica.commit version = (.missing, replica) := by
  cases hb : replica.baseline with
  | none =>
    refine .inr ?_
    simp only [commit, baselineVersion, hb]
    cases hg : replica.history.get? version with
    | none => exact .inr rfl
    | some snapshot => exact .inl ⟨snapshot, get?_mem hg, by simp, rfl⟩
  | some base =>
    by_cases hle : version ≤ base.version
    · exact .inl ⟨base, rfl, hle, by simp [commit, baselineVersion, hb, hle]⟩
    · refine .inr ?_
      simp only [commit, baselineVersion, hb, Option.map_some, Option.any_some, hle, decide_false,
        Bool.false_eq_true, if_false]
      cases hg : replica.history.get? version with
      | none => exact .inr rfl
      | some snapshot =>
        refine .inl ⟨snapshot, get?_mem hg, ?_, rfl⟩
        intro other ho
        obtain rfl : base = other := Option.some.inj ho
        simpa using hle

theorem mem_dropThrough {history : History Snapshot} {entry : Version × Snapshot}
    (he : entry ∈ (history.dropThrough version).entries) :
    entry ∈ history.entries ∧ version < entry.1 :=
  ⟨(List.takeWhile_sublist _).subset he, by simpa using List.mem_takeWhile_imp he⟩

theorem commit_confirms (h : Sound replica) (version : Version) :
    Confirms (· = version) replica (replica.commit version).2 := by
  rcases replica.commit_cases version with ⟨_, _, _, hc⟩ | ⟨snapshot, he, hb, hc⟩ | hc
  · rw [hc]; exact .refl _ _
  · rw [hc]
    refine ⟨rfl, rfl, rfl, fun entry hm => (mem_dropThrough hm).1,
      .inr ⟨version, snapshot, rfl, he, rfl⟩, ?_, rfl, rfl⟩
    intro base hbase
    refine ⟨snapshot, rfl, ?_⟩
    rw [h.named _ he]
    exact UInt64.le_of_lt (hb base hbase)
  · rw [hc]; exact .refl _ _

theorem commit_sound (h : Sound replica) (version : Version) :
    Sound (replica.commit version).2 := by
  rcases replica.commit_cases version with ⟨_, _, _, hc⟩ | ⟨snapshot, he, hb, hc⟩ | hc
  · rw [hc]; exact h
  · rw [hc]
    have hs : snapshot.version = version := h.named _ he
    constructor
    · exact fun entry hm => h.named entry (mem_dropThrough hm).1
    · exact h.falling.sublist (List.takeWhile_sublist _)
    · exact fun entry hm => h.entry_le entry (mem_dropThrough hm).1
    · intro base hbase
      obtain rfl : snapshot = base := Option.some.inj hbase
      rw [hs]
      exact h.entry_le _ he
    · intro base hbase entry hm
      obtain rfl : snapshot = base := Option.some.inj hbase
      rw [hs]
      exact (mem_dropThrough hm).2
  · rw [hc]; exact h

/-- Unless the version is gone, the baseline ends up at or past it. -/
theorem commit_settled (h : Sound replica) (hs : (replica.commit version).1.isSettled) :
    ∃ base, (replica.commit version).2.baseline = some base ∧ version ≤ base.version := by
  rcases replica.commit_cases version with ⟨base, hb, hle, hc⟩ | ⟨snapshot, he, _, hc⟩ | hc
  · rw [hc]
    exact ⟨base, hb, hle⟩
  · rw [hc]
    refine ⟨snapshot, rfl, ?_⟩
    rw [h.named _ he]
    exact UInt64.le_rfl
  · rw [hc] at hs
    simp [Commit.isSettled] at hs

end Confirmation

end AreaReplication.Replica
