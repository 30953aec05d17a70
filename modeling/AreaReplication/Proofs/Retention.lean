import AreaReplication.Proofs.ReplicaInvariant
import AreaReplication.Proofs.Settled
import Mathlib.Data.Finset.Card
import Mathlib.Data.Finset.Dedup

/-!
# Sent versions are held until too many newer ones are sent

The history of an object holds the newest of the versions sent since it last started over, as many
as its capacity allows and down to the baseline. So a version can be confirmed until as many newer
ones have been sent as the history has room for.
-/
namespace AreaReplication

namespace Replica

variable {replica after : Replica} {sent : List Version} {capacity : Nat}

theorem covers_iff_version {version : Version} : replica.covers version ↔
    ∃ base, replica.baselineVersion = some base ∧ version ≤ base := by
  simp [covers, Option.any_eq_true]

theorem covers_congr (baseline : after.baseline = replica.baseline) :
    after.covers = replica.covers := by
  funext version
  rw [covers, covers, baselineVersion, baseline]
  rfl

/-- `sent` are the versions sent since the object started over, the newest first. -/
structure Retains (sent : List Version) (replica : Replica) : Prop where
  falling : sent.Pairwise fun newer older => older < newer
  sent_le : ∀ version ∈ sent, version ≤ replica.version
  held : replica.history.versions =
    (sent.take replica.history.capacity).takeWhile fun version => !replica.covers version
  confirmed : ∀ base, replica.baselineVersion = some base → base ∈ sent

namespace Retains

theorem of_new (netId : NetId) (entity : EntityId) (capacity : Nat) :
    Retains [] (new netId entity capacity) := by
  constructor <;> simp [new, History.ofCapacity, History.versions, baselineVersion]

theorem mem_of_held (h : Retains sent replica) {version : Version}
    (held : version ∈ replica.history.versions) : version ∈ sent := by
  rw [h.held] at held
  exact List.mem_of_mem_take ((List.takeWhile_sublist _).subset held)

/-- The current version can only have been sent last. -/
theorem newest (h : Retains sent replica) (mem : replica.version ∈ sent) :
    ∃ older, sent = replica.version :: older := by
  cases sent with
  | nil => cases mem
  | cons first older =>
    rcases List.mem_cons.1 mem with same | earlier
    · exact ⟨older, by rw [same]⟩
    · have less := (List.pairwise_cons.1 h.falling).1 _ earlier
      exact absurd (h.sent_le first List.mem_cons_self) (UInt64.not_le.2 less)

theorem isRecorded_iff (h : Retains sent replica) (room : 0 < replica.history.capacity) :
    replica.isRecorded ↔ replica.version ∈ sent := by
  rw [isRecorded, Bool.or_eq_true, decide_eq_true_iff, decide_eq_true_iff, History.lastVersion_eq]
  constructor
  · rintro (last | confirmed)
    · exact h.mem_of_held (List.mem_of_mem_head? last)
    · exact h.confirmed _ confirmed
  · intro mem
    obtain ⟨older, rfl⟩ := h.newest mem
    by_cases covered : replica.covers replica.version
    · obtain ⟨base, held, le⟩ := covers_iff_version.1 covered
      rw [UInt64.le_antisymm (h.sent_le base (h.confirmed base held)) le] at held
      exact .inr held
    · obtain ⟨left, capacity⟩ := Nat.exists_eq_add_of_lt room
      rw [h.held, capacity]
      simp [covered]

theorem same (h : Retains sent replica) (later : replica.version ≤ after.version)
    (baseline : after.baseline = replica.baseline) (history : after.history = replica.history) :
    Retains sent after := by
  refine ⟨h.falling, fun version mem => UInt64.le_trans (h.sent_le version mem) later, ?_, ?_⟩
  · rw [history, covers_congr baseline]
    exact h.held
  · rw [baselineVersion, baseline]
    exact h.confirmed

theorem record (h : Retains sent replica) (regular : Regular capacity replica)
    (unsent : replica.version ∉ sent) (version : after.version = replica.version)
    (baseline : after.baseline = replica.baseline)
    (history : after.history = replica.history.push replica.version replica.current) :
    Retains (replica.version :: sent) after := by
  have less : ∀ other ∈ sent, other < replica.version := by
    intro other mem
    refine UInt64.lt_of_le_of_ne (h.sent_le other mem) ?_
    rintro rfl
    exact unsent mem
  have uncovered : replica.covers replica.version = false := by
    rw [← Bool.not_eq_true, covers_iff_version]
    rintro ⟨base, held, le⟩
    exact UInt64.not_le.2 (less base (h.confirmed base held)) le
  obtain ⟨left, room⟩ : ∃ left, replica.history.capacity = left + 1 :=
    ⟨max capacity 1 - 1, by rw [regular.room]; omega⟩
  constructor
  · exact List.pairwise_cons.2 ⟨less, h.falling⟩
  · intro other mem
    rw [version]
    rcases List.mem_cons.1 mem with rfl | mem
    · exact UInt64.le_rfl
    · exact h.sent_le other mem
  · -- A full history gives up its oldest version; both sides then take one less of what was sent.
    have kept : (replica.history.push replica.version replica.current).capacity = left + 1 := room
    rw [history, covers_congr baseline, kept, History.versions, History.push_entries (by omega),
      room, List.map_take, List.map_cons, ← History.versions, h.held, room, List.take_succ_cons,
      List.take_succ_cons, List.take_takeWhile, List.take_take, Nat.min_eq_left (Nat.le_succ left),
      List.takeWhile_cons_of_pos (by simp [uncovered])]
  · intro base held
    rw [baselineVersion, baseline] at held
    exact List.mem_cons_of_mem _ (h.confirmed base held)

theorem emit (h : Retains sent replica) (regular : Regular capacity replica) (time : Time) :
    ∃ older, Retains (replica.version :: older) (replica.emit time).value.2 ∧
      (sent = replica.version :: older ∨ sent = older) := by
  have room : 0 < replica.history.capacity := by rw [regular.room]; omega
  have version : (replica.emit time).value.2.version = replica.version := by
    rw [Replica.version, emit_current, Replica.version]
  have history : (replica.emit time).value.2.history = if replica.isRecorded then replica.history
      else replica.history.push replica.version replica.current := by
    rw [emit_eq regular.toSound]
  by_cases mem : replica.version ∈ sent
  · rw [if_pos ((h.isRecorded_iff room).2 mem)] at history
    obtain ⟨older, rfl⟩ := h.newest mem
    exact ⟨older, h.same (UInt64.le_of_eq version.symm) (emit_baseline _ _) history, .inl rfl⟩
  · rw [if_neg (mt (h.isRecorded_iff room).1 mem)] at history
    exact ⟨sent, h.record regular mem version (emit_baseline _ _) history, .inr rfl⟩

theorem confirm (h : Retains sent replica) (sound : Sound replica) {version : Version}
    {snapshot : Snapshot} (held : (version, snapshot) ∈ replica.history.entries)
    (above : ∀ base, replica.baseline = some base → base.version < version) :
    Retains sent { replica with
      baseline := some snapshot
      history := replica.history.dropThrough version } := by
  have named : snapshot.version = version := sound.named _ held
  constructor
  · exact h.falling
  · exact h.sent_le
  · rw [History.versions_dropThrough, h.held, List.takeWhile_takeWhile]
    refine congrArg (fun p => (sent.take _).takeWhile p) (funext fun other => ?_)
    have risen : covers { replica with
        baseline := some snapshot
        history := replica.history.dropThrough version } other = decide (other ≤ version) := by
      simp [covers, baselineVersion, named]
    rw [risen]
    by_cases less : version < other
    · have uncovered : ¬ replica.covers other := by
        rw [covers_iff]
        rintro ⟨base, hb, le⟩
        exact UInt64.not_le.2 (UInt64.lt_trans (above base hb) less) le
      simp [less, uncovered]
    · simp [less, UInt64.not_lt.1 less]
  · intro base hb
    obtain rfl : version = base := by simpa [baselineVersion, named] using hb
    exact h.mem_of_held (List.mem_map.2 ⟨_, held, rfl⟩)

/-- An operation that sends nothing leaves what was sent, unless the object starts over. -/
theorem change (h : Retains sent replica) (sound : Sound replica) {call : Call}
    (quiet : ∀ time, call ≠ .emit time) (change : Change replica call after) :
    Retains sent after ∨ (replica.Restarts call ∧ Retains [] after) := by
  cases change with
  | idle => exact .inl h
  | refresh _ later => exact .inl (h.same later rfl rfl)
  | restart restarts =>
    refine .inr ⟨restarts, ?_⟩
    constructor <;> simp [History.clear, History.versions, baselineVersion]
  | mark _ later => exact .inl (h.same later rfl rfl)
  | complete => exact .inl (h.same UInt64.le_rfl rfl rfl)
  | emit => exact absurd rfl (quiet _)
  | confirm held above => exact .inl (h.confirm sound held above)

/-- Of a version that was sent, the history holds the snapshot unless the baseline is past it or as
many newer ones have been sent as there is room for. -/
theorem mem_versions_iff {newer older : List Version} {version : Version}
    (h : Retains (newer ++ version :: older) replica) :
    version ∈ replica.history.versions ↔
      newer.length < replica.history.capacity ∧ ¬ replica.covers version := by
  have falling := h.falling
  have above : ∀ other ∈ newer, version < other := fun other mem =>
    (List.pairwise_append.1 falling).2.2 other mem version List.mem_cons_self
  rw [h.held]
  constructor
  · intro mem
    refine ⟨?_, by simpa using List.mem_takeWhile_imp mem⟩
    have taken := (List.takeWhile_sublist _).subset mem
    by_contra full
    rw [List.take_append_of_le_length (Nat.le_of_not_lt full)] at taken
    exact UInt64.lt_irrefl _ (above version (List.mem_of_mem_take taken))
  · rintro ⟨room, uncovered⟩
    obtain ⟨left, capacity⟩ := Nat.exists_eq_add_of_lt room
    have uncoveredAbove : ∀ other ∈ newer, (!replica.covers other) = true := by
      intro other mem
      rw [Bool.not_eq_true', ← Bool.not_eq_true]
      intro covered
      obtain ⟨base, held, le⟩ := covers_iff.1 covered
      have past := UInt64.le_trans (UInt64.le_of_lt (above other mem)) le
      exact uncovered (covers_iff.2 ⟨base, held, past⟩)
    rw [capacity, Nat.add_assoc, List.take_length_add_append, List.take_succ_cons,
      List.takeWhile_append_of_pos uncoveredAbove, List.takeWhile_cons_of_pos (by simp [uncovered])]
    simp

end Retains

/-- The object does not start over in the course of a run. -/
def Continues : List Call → Replica → Prop
  | [], _ => True
  | call :: rest, replica => ¬ replica.Restarts call ∧ Continues rest (replica.perform call)

instance decidableContinues :
    (calls : List Call) → (replica : Replica) → Decidable (replica.Continues calls)
  | [], _ => isTrue trivial
  | call :: rest, replica =>
    have := decidableContinues rest (replica.perform call)
    inferInstanceAs (Decidable (_ ∧ _))

def emitted : List Call → Replica → List Delta
  | [], _ => []
  | .emit time :: rest, replica =>
    (replica.emit time).value.1 :: emitted rest (replica.perform (.emit time))
  | call :: rest, replica => emitted rest (replica.perform call)

/-- The different versions past `version` among the given states. -/
def newerThan (version : Version) (states : List Delta) : Finset Version :=
  ((states.map Delta.version).filter (version < ·)).toFinset

theorem emitted_of_quiet {call : Call} (quiet : ∀ time, call ≠ .emit time) (rest : List Call) :
    replica.emitted (call :: rest) = (replica.perform call).emitted rest := by
  cases call with
  | emit time => exact absurd rfl (quiet time)
  | _ => rfl

theorem mem_newerThan_emit {version other : Version} (time : Time) (rest : List Call) :
    other ∈ newerThan version (replica.emitted (.emit time :: rest)) ↔
      (other = replica.version ∧ version < other) ∨
        other ∈ newerThan version ((replica.perform (.emit time)).emitted rest) := by
  simp only [newerThan, emitted, List.map_cons, emit_state, delta_version, List.mem_toFinset,
    List.mem_filter, List.mem_cons, decide_eq_true_eq]
  tauto

theorem play_retains (netId : NetId) (entity : EntityId) (capacity : Nat) (calls : List Call) :
    ∃ sent, Retains sent ((new netId entity capacity).play calls) := by
  induction calls using List.reverseRecOn with
  | nil => exact ⟨[], .of_new netId entity capacity⟩
  | append_singleton earlier call ih =>
    obtain ⟨sent, h⟩ := ih
    have regular := play_regular earlier (new_regular netId entity capacity)
    rw [play, List.foldl_append, ← play]
    by_cases emits : ∃ time, call = .emit time
    · obtain ⟨time, rfl⟩ := emits
      obtain ⟨older, retains, -⟩ := h.emit regular time
      exact ⟨_, retains⟩
    · have change := perform_change regular.toSound call
      rcases h.change regular.toSound (not_exists.1 emits) change with retains | ⟨-, retains⟩
      · exact ⟨_, retains⟩
      · exact ⟨_, retains⟩

/-- What is sent comes on top of what was sent before, unless it was sent last. -/
theorem Retains.emit_above {newer older : List Version} {version : Version}
    (h : Retains (newer ++ version :: older) replica) (regular : Regular capacity replica)
    (time : Time) : ∃ latest, Retains (latest ++ version :: older) (replica.emit time).value.2 ∧
      ∀ other, other ∈ latest ↔ other ∈ newer ∨ (other = replica.version ∧ version < other) := by
  obtain ⟨before, retains, same | grown⟩ := h.emit regular time
  · rw [← same] at retains
    refine ⟨newer, retains, fun other => ?_⟩
    have known : other = replica.version ∧ version < other → other ∈ newer := by
      rintro ⟨rfl, less⟩
      cases newer with
      | nil =>
        obtain ⟨rfl, -⟩ := List.cons.inj same
        exact absurd less (UInt64.lt_irrefl _)
      | cons first others =>
        obtain ⟨rfl, -⟩ := List.cons.inj same
        exact List.mem_cons_self
    exact (or_iff_left_of_imp known).symm
  · rw [← grown, ← List.cons_append] at retains
    refine ⟨replica.version :: newer, retains, fun other => ?_⟩
    have past : other = replica.version → version < other := by
      rintro rfl
      exact (List.pairwise_cons.1 retains.falling).1 version (by simp)
    rw [List.mem_cons, and_iff_left_of_imp past, or_comm]

/-- What a run without a new start sends comes on top of what was sent before. -/
theorem Retains.play {newer older : List Version} {version : Version} (calls : List Call)
    (h : Retains (newer ++ version :: older) replica) (regular : Regular capacity replica)
    (continues : replica.Continues calls) :
    ∃ latest, Retains (latest ++ version :: older) (replica.play calls) ∧ ∀ other,
      other ∈ latest ↔ other ∈ newer ∨ other ∈ newerThan version (replica.emitted calls) := by
  -- Over the rest of the run, with all that has come on top of `version` so far as `newer`.
  induction calls generalizing replica newer with
  | nil => exact ⟨newer, h, by simp [emitted, newerThan]⟩
  | cons call rest ih =>
    obtain ⟨goesOn, continues⟩ := continues
    have next := perform_regular call regular
    by_cases emits : ∃ time, call = .emit time
    · obtain ⟨time, rfl⟩ := emits
      obtain ⟨above, retains, first⟩ := h.emit_above regular time
      obtain ⟨latest, holds, mem⟩ := ih retains next continues
      refine ⟨latest, holds, fun other => ?_⟩
      rw [mem_newerThan_emit, ← or_assoc, ← first]
      exact mem other
    · have quiet := not_exists.1 emits
      have change := perform_change regular.toSound call
      have retains := (h.change regular.toSound quiet change).resolve_right fun started =>
        goesOn started.1
      rw [emitted_of_quiet quiet]
      exact ih retains next continues

theorem commit_missing_iff {version : Version} : (replica.commit version).1 = .missing ↔
    version ∉ replica.history.versions ∧ ¬ replica.covers version := by
  by_cases covered : replica.covers version
  · have same : replica.commit version = (.covered, replica) := if_pos covered
    simp [same, covered]
  · have uncovered : ¬ replica.baselineVersion.any fun base => version ≤ base := covered
    have got : (replica.commit version).1 =
        if (replica.history.get? version).isSome then .moved else .missing := by
      rw [commit, if_neg uncovered]
      cases replica.history.get? version <;> rfl
    rw [got, ← History.get?_isSome_iff]
    split_ifs with held <;> simp [held, covered]

/-- The acknowledgment of a version counts if it comes in time. Take any operations on a new object
and a state that they send, and then any operations without a new start. As long as fewer different
newer versions have been sent than the history has room for, confirming the version of the state
moves the baseline or finds it covered. The version is missing exactly if as many newer ones have
been sent and the baseline is not past it anyway. -/
theorem timely_ack_counts (netId : NetId) (entity : EntityId) (capacity : Nat)
    (earlier later : List Call) (time : Time) :
    let start := (new netId entity capacity).play earlier
    let version := (start.emit time).value.1.version
    let sent := start.perform (.emit time)
    let newer := newerThan version (sent.emitted later)
    let now := sent.play later
    sent.Continues later →
      (newer.card < max capacity 1 →
        ((now.commit version).1 = .moved ∨ (now.commit version).1 = .covered) ∧
        ∃ base, (now.commit version).2.baselineVersion = some base ∧ version ≤ base) ∧
      ((now.commit version).1 = .missing ↔ max capacity 1 ≤ newer.card ∧ ¬ now.covers version) := by
  intro start version sent newer now continues
  have regular : Regular capacity start := play_regular earlier (new_regular netId entity capacity)
  have regularSent := perform_regular (.emit time) regular
  have regularNow : Regular capacity now := play_regular later regularSent
  have named : version = start.version := start.delta_version
  obtain ⟨before, retained⟩ : ∃ before, Retains before start :=
    play_retains netId entity capacity earlier
  obtain ⟨older, emitted, -⟩ := retained.emit regular time
  have retains : Retains ([] ++ version :: older) sent := by
    rw [named]
    exact emitted
  obtain ⟨latest, holds, mem⟩ := retains.play later regularSent continues
  have count : latest.length = newer.card := by
    have distinct : latest.Nodup := by
      refine (List.pairwise_append.1 holds.falling).1.imp ?_
      rintro one other less rfl
      exact UInt64.lt_irrefl _ less
    have same : latest.toFinset = newer := by
      ext other
      rw [List.mem_toFinset, mem]
      simp [newer]
    rw [← same, List.toFinset_card_of_nodup distinct]
  have missing : (now.commit version).1 = .missing ↔
      max capacity 1 ≤ newer.card ∧ ¬ now.covers version := by
    rw [commit_missing_iff, holds.mem_versions_iff, regularNow.room, count, not_and_or,
      Nat.not_lt, not_not]
    tauto
  refine ⟨fun few => ?_, missing⟩
  have settled : (now.commit version).1 ≠ .missing := by
    intro lost
    exact Nat.not_le.2 few (missing.1 lost).1
  constructor
  · cases outcome : (now.commit version).1 with
    | moved => exact .inl rfl
    | covered => exact .inr rfl
    | missing => exact absurd outcome settled
  · have covers : (now.commit version).2.covers version := by
      rw [← commit_isSettled regularNow.toSound, Commit.isSettled]
      simpa using settled
    exact covers_iff_version.1 covers

def appearing : List Call := [.update 5 ⟨0, 0, 0⟩ 1 .zero .identity]

/-- The object moves, is removed, and comes back before its removal has been sent. -/
def comingBack : List Call :=
  [.update 6 ⟨0, 0, 0⟩ 1 ⟨.one, .zero, .zero⟩ .identity, .emit 6, .remove 7,
    .update 7 ⟨1, 0, 0⟩ 2 .zero .identity, .emit 7, .emit 7]

theorem timely_ack_counts_comingBack :
    let sent := ((new 1 7 3).play appearing).perform (.emit 5)
    let now := sent.play comingBack
    sent.Continues comingBack ∧ newerThan 5 (sent.emitted comingBack) = {6, 7} ∧
      ((now.commit 5).1 = .moved ∨ (now.commit 5).1 = .covered) ∧
      ∃ base, (now.commit 5).2.baselineVersion = some base ∧ 5 ≤ base := by
  intro sent now
  have continues : sent.Continues comingBack := by decide_cbv
  have newer : newerThan 5 (sent.emitted comingBack) = {6, 7} := by decide_cbv
  have few : (newerThan 5 (sent.emitted comingBack)).card < max 3 1 := by
    rw [newer]
    decide
  exact ⟨continues, newer, (timely_ack_counts 1 7 3 appearing comingBack 5 continues).1 few⟩

end Replica

end AreaReplication
