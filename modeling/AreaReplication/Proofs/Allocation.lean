import AreaReplication.Proofs.Names
import Mathlib.Data.List.Permutation
import Mathlib.Order.Bounds.Basic
import Mathlib.Tactic.Tauto

/-!
# Which number is given out

From the first number on, each number below `next` is in use, free or in quarantine. So the least
free number, or `next` if none is free, is the least of all that are neither in use nor in
quarantine. The quarantine is in the order of its watermarks as long as these do not go down, and
then a number waits for its own messages only.
-/
namespace AreaReplication.Names

variable {names : Names} {first : NetId}

inductive Call where
  | assign (entity : EntityId)
  | retire (id : NetId) (watermark : MessageId)
  | release (settledBefore : MessageId)

def Call.watermark? : Call → Option MessageId
  | .retire _ watermark => some watermark
  | _ => none

def perform (names : Names) : Call → Names
  | .assign entity => (names.assign entity).value.2
  | .retire id watermark => (names.retire id watermark).value
  | .release settledBefore => (names.release settledBefore).2

def play (calls : List Call) (names : Names) : Names := calls.foldl perform names

def Used (names : Names) (id : NetId) : Prop := ∃ entity, names.entityOf? id = some entity

/-- The numbers from `first` on that neither belong to an entity nor wait in quarantine. The last
number is never given out. -/
def unused (first : NetId) (names : Names) : Set NetId :=
  {id | first ≤ id ∧ id.toNat + 1 < UInt32.size ∧ ¬ names.Used id ∧ ¬ names.Quarantined id}

/-- The three groups of numbers make up the range from `first` to `next`. -/
structure Filled (first : NetId) (names : Names) : Prop extends Sound names where
  first_le : first ≤ names.next
  known : ∀ id, names.Used id ∨ id ∈ names.free ∨ names.Quarantined id ↔
    first ≤ id ∧ id < names.next

theorem new_filled (first : NetId) : Filled first { next := first } where
  toSound := new_sound first
  first_le := UInt32.le_rfl
  known id := by
    simp [Used, entityOf?, Quarantined]

theorem assign_new {entity : EntityId} (unnamed : names.idOf? entity = none) :
    (names.assign entity).value = match names.take? with
      | some (id, rest) => (some id, rest.bind id entity)
      | none => (none, names) := by
  simp only [assign, unnamed]
  cases names.take? <;> rfl

theorem Fresh.used_bind {id other : NetId} {rest : Names} {entity : EntityId}
    (h : Fresh names id rest) :
    (rest.bind id entity).Used other ↔ id = other ∨ names.Used other := by
  rw [Used, h.entityOf?_bind]
  by_cases same : id = other
  · simp [same]
  · simp [same, Used]

/-- The number to give out next completes the range again. -/
theorem take?_filled (h : Filled first names) {id : NetId} {rest : Names}
    (taken : names.take? = some (id, rest)) : first ≤ rest.next ∧ ∀ other,
      id = other ∨ names.Used other ∨ other ∈ rest.free ∨ names.Quarantined other ↔
        first ≤ other ∧ other < rest.next := by
  rcases names.take?_cases with ⟨least, found, same⟩ | ⟨-, room, same⟩ | ⟨-, -, same⟩
  · obtain ⟨rfl, rfl⟩ := Prod.mk.inj (Option.some.inj (same.symm.trans taken))
    have mem := (Std.ExtTreeSet.min?_eq_some_iff_mem_and_forall.1 found).1
    refine ⟨h.first_le, fun other => ?_⟩
    have free : other ∈ names.free.erase least ↔ least ≠ other ∧ other ∈ names.free := by
      rw [Std.ExtTreeSet.mem_erase, Ne, Std.LawfulEqCmp.compare_eq_iff_eq]
    rw [← h.known other, free]
    by_cases chosen : least = other
    · subst chosen
      simp [mem]
    · simp [chosen]
  · obtain ⟨rfl, rfl⟩ := Prod.mk.inj (Option.some.inj (same.symm.trans taken))
    have grown : ∀ other, other < names.next + 1 ↔ other < names.next ∨ other = names.next :=
      fun other => lt_succ_iff room
    refine ⟨?_, fun other => ?_⟩
    · exact UInt32.le_of_lt (UInt32.lt_of_le_of_lt h.first_le ((grown _).2 (.inr rfl)))
    · rw [h.known, grown]
      constructor
      · rintro (rfl | ⟨le, less⟩)
        · exact ⟨h.first_le, .inr rfl⟩
        · exact ⟨le, .inl less⟩
      · rintro ⟨le, less | rfl⟩
        · exact .inr ⟨le, less⟩
        · exact .inl rfl
  · cases same.symm.trans taken

theorem assign_filled (h : Filled first names) (entity : EntityId) :
    Filled first (names.assign entity).value.2 := by
  have sound := assign_sound h.toSound entity
  cases named : names.idOf? entity with
  | some id =>
    have same : names.assign entity = ⟨(some id, names), []⟩ := by
      simp only [assign, named]
      rfl
    rw [same]
    exact h
  | none =>
    rw [assign_new named] at sound ⊢
    cases taken : names.take? with
    | none => exact h
    | some pair =>
      obtain ⟨id, rest⟩ := pair
      have fresh := take?_fresh h.toSound taken
      obtain ⟨le, filled⟩ := take?_filled h taken
      rw [taken] at sound
      refine { sound with first_le := le, known := fun other => ?_ }
      rw [fresh.used_bind, fresh.quarantined_bind, or_assoc]
      exact filled other

theorem retire_filled (h : Filled first names) (id : NetId) (watermark : MessageId) :
    Filled first (names.retire id watermark).value := by
  have sound : Sound (names.retire id watermark).value := retire_sound watermark h.toSound
  cases held : names.entityOf? id with
  | none =>
    rw [names.retire_none id watermark held]
    exact h
  | some entity =>
    have next : (names.retire id watermark).value.next = names.next := by
      rw [names.retire_some id watermark held]
    have free : (names.retire id watermark).value.free = names.free := by
      rw [names.retire_some id watermark held]
    refine { sound with first_le := next ▸ h.first_le, known := fun other => ?_ }
    rw [next, free, ← h.known, retire_quarantined watermark held, Used, retire_entityOf?]
    by_cases same : id = other
    · subst same
      simp [Used, held]
    · simp [same, Ne.symm same, Used]

theorem release_filled (h : Filled first names) (settledBefore : MessageId) :
    Filled first (names.release settledBefore).2 := by
  refine { release_sound h.toSound with first_le := h.first_le, known := fun other => ?_ }
  have free : other ∈ (names.release settledBefore).2.free ↔
      other ∈ names.free ∨ ∃ mark, (mark, other) ∈ names.released settledBefore :=
    foldl_insert_mem _ _ _
  have split : names.Quarantined other ↔ (names.release settledBefore).2.Quarantined other ∨
      ∃ mark, (mark, other) ∈ names.released settledBefore := by
    rw [Quarantined, names.release_quarantine settledBefore]
    simp [Quarantined, exists_or]
  rw [free]
  refine Iff.trans ?_ (h.known other)
  rw [split]
  have used : (names.release settledBefore).2.Used other ↔ names.Used other := Iff.rfl
  rw [used]
  tauto

theorem perform_filled (h : Filled first names) (call : Call) :
    Filled first (names.perform call) := by
  cases call with
  | assign entity => exact assign_filled h entity
  | retire id watermark => exact retire_filled h id watermark
  | release settledBefore => exact release_filled h settledBefore

theorem play_filled (calls : List Call) (h : Filled first names) :
    Filled first (names.play calls) := by
  induction calls generalizing names with
  | nil => exact h
  | cons call rest ih => exact ih (perform_filled h call)

theorem Fresh.mem_unused {id : NetId} {rest : Names} (fresh : Fresh names id rest)
    (le : first ≤ id) (room : id.toNat + 1 < UInt32.size) : id ∈ names.unused first := by
  refine ⟨le, room, ?_, fresh.unquarantined⟩
  rintro ⟨entity, used⟩
  rw [fresh.unused] at used
  cases used

theorem Filled.free_of_unused (h : Filled first names) {id : NetId}
    (mem : id ∈ names.unused first) (below : id < names.next) : id ∈ names.free := by
  obtain ⟨le, -, unused, unquarantined⟩ := mem
  rcases (h.known id).2 ⟨le, below⟩ with used | free | waits
  · exact absurd used unused
  · exact free
  · exact absurd waits unquarantined

theorem take?_least (h : Filled first names) {id : NetId} {rest : Names}
    (taken : names.take? = some (id, rest)) : IsLeast (names.unused first) id := by
  have fresh := take?_fresh h.toSound taken
  rcases names.take?_cases with ⟨least, found, same⟩ | ⟨empty, room, same⟩ | ⟨-, -, same⟩
  · obtain ⟨rfl, -⟩ : least = id ∧ _ := by simpa using same.symm.trans taken
    obtain ⟨free, le⟩ := Std.ExtTreeSet.min?_eq_some_iff_mem_and_forall.1 found
    obtain ⟨start, below⟩ := (h.known least).1 (.inr (.inl free))
    constructor
    · refine fresh.mem_unused start ?_
      rw [UInt32.lt_iff_toNat_lt] at below
      exact Nat.lt_of_le_of_lt below names.next.toNat_lt_size
    · intro other mem
      by_cases early : other < names.next
      · have freeToo := h.free_of_unused mem early
        exact (Std.LawfulOrderOrd.isLE_compare _ _).1 (le other freeToo)
      · exact UInt32.le_of_lt (UInt32.lt_of_lt_of_le below (UInt32.not_lt.1 early))
  · obtain ⟨rfl, -⟩ : names.next = id ∧ _ := by simpa using same.symm.trans taken
    constructor
    · exact fresh.mem_unused h.first_le room
    · intro other mem
      by_contra early
      have free := h.free_of_unused mem (UInt32.not_le.1 early)
      simp [empty] at free
  · cases same.symm.trans taken

theorem unused_of_take?_none (h : Filled first names) (taken : names.take? = none) :
    names.unused first = ∅ := by
  rcases names.take?_cases with ⟨_, _, same⟩ | ⟨_, _, same⟩ | ⟨empty, full, -⟩
  · cases same.symm.trans taken
  · cases same.symm.trans taken
  · rw [Set.eq_empty_iff_forall_notMem]
    intro id mem
    have below : id < names.next := by
      have := mem.2.1
      rw [UInt32.lt_iff_toNat_lt]
      omega
    have free := h.free_of_unused mem below
    simp [empty] at free

theorem takeWhile_eq_filter {α : Type} {p : α → Bool} {l : List α}
    (lasting : l.Pairwise fun x y => p y → p x) : l.takeWhile p = l.filter p := by
  induction l with
  | nil => rfl
  | cons x rest ih =>
    obtain ⟨first, others⟩ := List.pairwise_cons.1 lasting
    cases holds : p x with
    | true => rw [List.takeWhile_cons_of_pos holds, List.filter_cons_of_pos holds, ih others]
    | false =>
      have none : rest.filter p = [] := by
        rw [List.filter_eq_nil_iff]
        intro y mem later
        rw [first y mem later] at holds
        cases holds
      rw [List.takeWhile_cons_of_neg (by simp [holds]), List.filter_cons_of_neg (by simp [holds]),
        none]

/-- The quarantine is in the order of its watermarks, the latest first. -/
def InOrder (names : Names) : Prop :=
  names.quarantine.Pairwise fun later earlier => earlier.1 ≤ later.1

theorem released_eq (ordered : names.InOrder) (settledBefore : MessageId) :
    names.released settledBefore =
      (names.quarantine.filter fun entry => entry.1 < settledBefore).reverse := by
  rw [released, takeWhile_eq_filter, List.filter_reverse]
  refine (List.pairwise_reverse.2 ordered).imp fun le less => ?_
  simp only [decide_eq_true_eq] at less ⊢
  exact UInt64.lt_of_le_of_lt le less

theorem release_quarantine_eq (ordered : names.InOrder) (settledBefore : MessageId) :
    (names.release settledBefore).2.quarantine =
      names.quarantine.filter fun entry => ¬ entry.1 < settledBefore := by
  have split := names.release_quarantine settledBefore
  rw [released_eq ordered, List.reverse_reverse] at split
  generalize (names.release settledBefore).2.quarantine = left at split
  -- What is released is all that is settled, so nothing settled can be left.
  have settled := congrArg (List.filter fun entry => entry.1 < settledBefore) split
  have none : (left.filter fun entry => entry.1 < settledBefore) = [] := by
    simpa [List.filter_filter] using settled
  have unsettled : ∀ entry ∈ left, ¬ entry.1 < settledBefore := by
    simpa [List.filter_eq_nil_iff] using none
  rw [split, List.filter_append, List.filter_eq_self.2 (by simpa using unsettled)]
  simp [List.filter_filter]

theorem perform_inOrder (ordered : names.InOrder) (call : Call)
    (later : ∀ mark ∈ call.watermark?, ∀ entry ∈ names.quarantine, entry.1 ≤ mark) :
    (names.perform call).InOrder ∧ ∀ entry ∈ (names.perform call).quarantine,
      entry ∈ names.quarantine ∨ call.watermark? = some entry.1 := by
  cases call with
  | assign entity =>
    rw [InOrder, perform, assign_quarantine]
    exact ⟨ordered, fun entry mem => .inl mem⟩
  | retire id watermark =>
    cases held : names.entityOf? id with
    | none =>
      rw [perform, names.retire_none id watermark held]
      exact ⟨ordered, fun entry mem => .inl mem⟩
    | some entity =>
      rw [InOrder, perform, retire_quarantine watermark held]
      refine ⟨List.pairwise_cons.2 ⟨later watermark rfl, ordered⟩, fun entry mem => ?_⟩
      rcases List.mem_cons.1 mem with rfl | mem
      · exact .inr rfl
      · exact .inl mem
  | release settledBefore =>
    have kept : (names.release settledBefore).2.quarantine.Sublist names.quarantine :=
      List.take_sublist _ _
    exact ⟨ordered.sublist kept, fun entry mem => .inl (kept.subset mem)⟩

theorem play_inOrder (calls : List Call) (ordered : names.InOrder)
    (rising : (calls.filterMap Call.watermark?).Pairwise (· ≤ ·))
    (later : ∀ mark ∈ calls.filterMap Call.watermark?, ∀ entry ∈ names.quarantine, entry.1 ≤ mark) :
    (names.play calls).InOrder := by
  induction calls generalizing names with
  | nil => exact ordered
  | cons call rest ih =>
    have among : ∀ mark ∈ rest.filterMap Call.watermark?,
        mark ∈ (call :: rest).filterMap Call.watermark? := by
      intro mark mem
      exact ((List.sublist_cons_self call rest).filterMap _).subset mem
    obtain ⟨next, came⟩ := perform_inOrder ordered call fun mark mem =>
      later mark (List.mem_filterMap.2 ⟨call, List.mem_cons_self, mem⟩)
    refine ih next (rising.sublist ((List.sublist_cons_self call rest).filterMap _)) ?_
    intro mark mem entry held
    rcases came entry held with before | new
    · exact later mark (among mark mem) entry before
    · rw [List.filterMap_cons_some new] at rising
      exact (List.pairwise_cons.1 rising).1 mark mem

/-- Take any operations on a fresh table whose watermarks do not go down, unknown and repeated
numbers among them. The numbers in use, free and in quarantine are apart, and together they are the
range from the first number to `next`; the two maps are inverse; an entity without a number gets the
least unused one, and none exactly if there is none, which leaves the table alone; and what is
released are the numbers in quarantine whose watermark is settled. -/
theorem numbers_given_out_in_order (first : NetId) (calls : List Call)
    (rising : (calls.filterMap Call.watermark?).Pairwise (· ≤ ·)) :
    let names := play calls { next := first }
    (∀ id, (names.Used id ∨ id ∈ names.free ∨ names.Quarantined id ↔ first ≤ id ∧ id < names.next) ∧
      ¬ (names.Used id ∧ id ∈ names.free) ∧ ¬ (names.Used id ∧ names.Quarantined id) ∧
      ¬ (id ∈ names.free ∧ names.Quarantined id)) ∧
    (∀ id entity, names.entityOf? id = some entity ↔ names.idOf? entity = some id) ∧
    (∀ entity, names.idOf? entity = none →
      (∀ id, (names.assign entity).value.1 = some id ↔ IsLeast (names.unused first) id) ∧
      ((names.assign entity).value.1 = none ↔ names.unused first = ∅) ∧
      ((names.assign entity).value.1 = none → (names.assign entity).value.2 = names)) ∧
    ∀ settledBefore,
      let settled := names.quarantine.filter fun entry => entry.1 < settledBefore
      let (count, after) := names.release settledBefore
      count = settled.length ∧ (settled.map (·.2)).Nodup ∧
        (∀ id, id ∈ after.free ↔ id ∈ names.free ∨ id ∈ settled.map (·.2)) ∧
        after.quarantine = names.quarantine.filter (fun entry => ¬ entry.1 < settledBefore) ∧
        after.entities = names.entities ∧ after.ids = names.ids ∧ after.next = names.next := by
  intro names
  have h : Filled first names := play_filled calls (new_filled first)
  have ordered : names.InOrder :=
    play_inOrder calls List.Pairwise.nil rising fun _ _ _ mem => absurd mem List.not_mem_nil
  refine ⟨fun id => ⟨h.known id, ?_, ?_, ?_⟩, h.inverse, fun entity unnamed => ?_,
    fun settledBefore => ⟨?_, ?_, fun id => ?_, release_quarantine_eq ordered _, rfl, rfl, rfl⟩⟩
  · rintro ⟨⟨entity, used⟩, free⟩
    exact h.used_not_free id entity used free
  · rintro ⟨⟨entity, used⟩, waits⟩
    exact h.used_not_quarantined id entity used waits
  · rintro ⟨free, waits⟩
    exact h.free_not_quarantined id free waits
  · rw [assign_new unnamed]
    cases taken : names.take? with
    | none => simp [unused_of_take?_none h taken, IsLeast]
    | some pair =>
      have least := take?_least h taken
      refine ⟨fun id => ⟨?_, fun other => ?_⟩, ⟨nofun, fun empty => ?_⟩, nofun⟩
      · rintro ⟨⟩
        exact least
      · exact congrArg some (UInt32.le_antisymm (least.2 other.1) (other.2 least.1))
      · rw [empty] at least
        exact absurd least.1 (Set.notMem_empty _)
  · have count : (names.release settledBefore).1 = (names.released settledBefore).length := rfl
    exact count.trans (by rw [released_eq ordered, List.length_reverse])
  · exact h.once.sublist ((List.filter_sublist).map _)
  · refine (foldl_insert_mem _ _ _).trans ?_
    rw [released_eq ordered]
    simp

/-- Two of three numbers come back with the same watermark, a number that nobody has comes back, one
of the two is given out again, and the third has to wait longer. -/
def handedBack : List Call :=
  [.assign 100, .assign 200, .assign 300, .retire 2 4, .retire 1 4, .retire 9 5, .retire 2 6,
    .release 5, .assign 400, .retire 3 6]

theorem numbers_given_out_in_order_handedBack :
    let names := play handedBack { next := 1 }
    (handedBack.filterMap Call.watermark?).Pairwise (· ≤ ·) ∧
      names.entityOf? 1 = some 400 ∧ 2 ∈ names.free ∧ names.quarantine = [(6, 3)] ∧
      names.next = 4 ∧ IsLeast (names.unused 1) 2 ∧ (names.release 6).1 = 0 ∧
      3 ∈ (names.release 7).2.free := by
  have rising : (handedBack.filterMap Call.watermark?).Pairwise (· ≤ ·) := by decide
  obtain ⟨-, -, chosen, freed⟩ := numbers_given_out_in_order 1 handedBack rising
  have waiting : (play handedBack { next := 1 }).quarantine = [(6, 3)] := by decide_cbv
  refine ⟨rising, by decide_cbv, by decide_cbv, waiting, by decide_cbv, ?_, ?_, ?_⟩
  · exact ((chosen 500 (by decide_cbv)).1 2).1 (by decide_cbv)
  · exact (freed 6).1.trans (by rw [waiting]; decide)
  · refine ((freed 7).2.2.1 3).2 (.inr ?_)
    rw [waiting]
    decide

end AreaReplication.Names
