import AreaReplication.Replica.History
import Mathlib.Data.List.Induction
import Mathlib.Data.List.TakeWhile
import Mathlib.Order.Bounds.Basic
import Mathlib.Tactic.SplitIfs

/-!
# What a bounded history holds

Entries are added, dropped up to a version or all cleared, in any order. An entry is found exactly
as long as it was neither cleared nor dropped and fewer entries have been added behind it than the
history has room for, even where drops made room or let versions start over from below. As the
versions ascend all the time, a search that halves the entries finds what is there.
-/
namespace AreaReplication.History

variable {α : Type} {history : History α} {version : Version} {value : α}

def versions (history : History α) : List Version := history.entries.map (·.1)

theorem lastVersion_eq (history : History α) : history.lastVersion = history.versions.head? := by
  rw [lastVersion, versions, List.head?_map]

theorem get?_isSome_iff : (history.get? version).isSome ↔ version ∈ history.versions := by
  rw [get?, Option.isSome_map, List.find?_isSome, versions, List.mem_map]
  simp only [decide_eq_true_eq]

theorem versions_dropThrough (history : History α) (version : Version) :
    (history.dropThrough version).versions =
      history.versions.takeWhile fun other => version < other := by
  rw [versions, versions, List.takeWhile_map]
  rfl

theorem dropThrough_dropThrough {first second : Version} (le : first ≤ second) :
    (history.dropThrough first).dropThrough second = history.dropThrough second := by
  simp only [dropThrough, List.takeWhile_takeWhile]
  congr 2
  funext entry
  by_cases later : second < entry.1
  · simp [later, UInt64.lt_of_le_of_lt le later]
  · simp [later]

/-- Entries fall from the newest on, so those above an entry are the ones before it. -/
theorem dropThrough_entries {newer older : List (Version × α)} {entry : Version × α}
    (falling : history.entries.Pairwise fun newer older => older.1 < newer.1)
    (split : history.entries = newer ++ entry :: older) :
    (history.dropThrough entry.1).entries = newer := by
  rw [split] at falling
  have above := (List.pairwise_append.1 falling).2.2
  have taken : ∀ other ∈ newer, decide (entry.1 < other.1) = true := by
    intro other ho
    exact decide_eq_true (above other ho entry List.mem_cons_self)
  have last : decide (entry.1 < entry.1) = false := decide_eq_false (UInt64.lt_irrefl _)
  rw [dropThrough, split, List.takeWhile_append_of_pos taken, List.takeWhile_cons, last]
  exact List.append_nil newer

/-- No entry is above the last one. -/
theorem le_last (falling : history.entries.Pairwise fun newer older => older.1 < newer.1)
    {last : Version} (newest : history.lastVersion = some last) {entry : Version × α}
    (held : entry ∈ history.entries) : entry.1 ≤ last := by
  unfold lastVersion at newest
  cases first : history.entries with
  | nil =>
    rw [first] at held
    cases held
  | cons top rest =>
    rw [first] at newest held falling
    obtain rfl : top.1 = last := Option.some.inj newest
    rcases List.mem_cons.1 held with rfl | older
    · exact UInt64.le_refl _
    · exact UInt64.le_of_lt ((List.pairwise_cons.1 falling).1 entry older)

theorem push_entries (room : 0 < history.capacity) (version : Version) (value : α) :
    (history.push version value).entries =
      ((version, value) :: history.entries).take history.capacity := by
  obtain ⟨left, capacity⟩ : ∃ left, history.capacity = left + 1 := ⟨history.capacity - 1, by omega⟩
  simp only [push, size, capacity, List.take_succ_cons, Nat.add_sub_cancel]
  split_ifs with less
  · rw [List.take_of_length_le (by omega)]
  · rfl

theorem push_getElem?_succ (room : 0 < history.capacity) (before : Nat) :
    (history.push version value).entries[before + 1]? =
      if before + 1 < history.capacity then history.entries[before]? else none := by
  rw [push_entries room, List.getElem?_take, List.getElem?_cons_succ]

/-- An entry is refused by the last one, or pushed behind it. -/
theorem insert_cases (history : History α) (version : Version) (value : α) :
    (∃ last, history.lastVersion = some last ∧ version ≤ last ∧
        history.insert version value = .error (.outOfOrder last version)) ∨
      ((∀ last, history.lastVersion = some last → last < version) ∧
        history.insert version value = .ok (history.push version value)) := by
  unfold insert
  cases history.lastVersion with
  | none => exact .inr ⟨nofun, rfl⟩
  | some last =>
    by_cases late : version ≤ last
    · exact .inl ⟨last, rfl, late, if_pos late⟩
    · refine .inr ⟨?_, if_neg late⟩
      rintro _ ⟨⟩
      exact UInt64.not_le.1 late

inductive Call (α : Type) where
  | insert (version : Version) (value : α)
  | dropThrough (version : Version)
  | clear

def perform (history : History α) : Call α → History α
  | .insert version value =>
    match history.insert version value with
    | .ok next => next
    | .error _ => history
  | .dropThrough version => history.dropThrough version
  | .clear => history.clear

def play (history : History α) (calls : List (Call α)) : History α := calls.foldl perform history

def accepts (history : History α) : Call α → Bool
  | .insert version value => (history.insert version value).isOk
  | .dropThrough _ | .clear => false

/-- How many of the calls add an entry, one after the other. -/
def accepted : History α → List (Call α) → Nat
  | _, [] => 0
  | history, call :: later =>
    (if history.accepts call then 1 else 0) + (history.perform call).accepted later

theorem play_concat (history : History α) (calls : List (Call α)) (call : Call α) :
    history.play (calls ++ [call]) = (history.play calls).perform call := by
  rw [play, List.foldl_append]
  rfl

theorem accepted_concat (history : History α) (calls : List (Call α)) (call : Call α) :
    history.accepted (calls ++ [call]) =
      history.accepted calls + if (history.play calls).accepts call then 1 else 0 := by
  induction calls generalizing history with
  | nil => exact Nat.add_comm _ _
  | cons first rest ih =>
    rw [List.cons_append, accepted, ih, accepted, Nat.add_assoc]
    rfl

theorem play_split (history : History α) (earlier later : List (Call α)) (call : Call α) :
    history.play (earlier ++ call :: later) = (history.play (earlier ++ [call])).play later := by
  rw [play, play, play, ← List.foldl_append, List.append_assoc, List.singleton_append]

theorem perform_of_error {error : HistoryError}
    (refused : history.insert version value = .error error) :
    history.perform (.insert version value) = history ∧
      history.accepts (.insert version value) = false := by
  simp [perform, accepts, refused, Except.isOk, Except.toBool]

theorem perform_of_ok {next : History α} (taken : history.insert version value = .ok next) :
    history.perform (.insert version value) = next ∧
      history.accepts (.insert version value) = true := by
  simp [perform, accepts, taken, Except.isOk, Except.toBool]

theorem perform_capacity (history : History α) (call : Call α) :
    (history.perform call).capacity = history.capacity := by
  cases call with
  | insert version value =>
    rcases history.insert_cases version value with ⟨last, -, -, refused⟩ | ⟨-, taken⟩
    · rw [(perform_of_error refused).1]
    · rw [(perform_of_ok taken).1]
      rfl
  | dropThrough | clear => rfl

theorem play_capacity (history : History α) (calls : List (Call α)) :
    (history.play calls).capacity = history.capacity := by
  induction calls generalizing history with
  | nil => rfl
  | cons call rest ih => exact (ih _).trans (history.perform_capacity call)

/-- The entries fall from the newest on, and there are no more than there is room for. -/
structure Ordered (history : History α) : Prop where
  falling : history.entries.Pairwise fun newer older => older.1 < newer.1
  room : 0 < history.capacity
  bounded : history.size ≤ history.capacity

namespace Ordered

theorem of_capacity (capacity : Nat) : Ordered (ofCapacity capacity : History α) where
  falling := .nil
  room := Nat.lt_of_lt_of_le Nat.one_pos (Nat.le_max_right _ _)
  bounded := Nat.zero_le _

theorem push (h : Ordered history)
    (after : ∀ last, history.lastVersion = some last → last < version) :
    Ordered (history.push version value) where
  falling := by
    have above : ∀ entry ∈ history.entries, entry.1 < version := by
      intro entry held
      cases newest : history.lastVersion with
      | none =>
        unfold lastVersion at newest
        rw [Option.map_eq_none_iff, List.head?_eq_none_iff] at newest
        rw [newest] at held
        cases held
      | some last => exact UInt64.lt_of_le_of_lt (le_last h.falling newest held) (after last newest)
    rw [push_entries h.room]
    exact (List.pairwise_cons.2 ⟨above, h.falling⟩).sublist (List.take_sublist _ _)
  room := h.room
  bounded := by
    rw [size, push_entries h.room]
    exact List.length_take_le _ _

theorem perform (h : Ordered history) (call : Call α) : Ordered (history.perform call) := by
  cases call with
  | insert version value =>
    rcases history.insert_cases version value with ⟨last, -, -, refused⟩ | ⟨after, taken⟩
    · rw [(perform_of_error refused).1]
      exact h
    · rw [(perform_of_ok taken).1]
      exact h.push after
  | dropThrough version =>
    have kept : (history.dropThrough version).entries.Sublist history.entries :=
      List.takeWhile_sublist _
    exact ⟨h.falling.sublist kept, h.room, Nat.le_trans kept.length_le h.bounded⟩
  | clear => exact ⟨.nil, h.room, Nat.zero_le _⟩

theorem play (h : Ordered history) (calls : List (Call α)) : Ordered (history.play calls) := by
  induction calls generalizing history with
  | nil => exact h
  | cons call rest ih => exact ih (h.perform call)

theorem lt_capacity (h : Ordered history) {age : Nat} {entry : Version × α}
    (held : history.entries[age]? = some entry) : age < history.capacity := by
  obtain ⟨inside, -⟩ := List.getElem?_eq_some_iff.1 held
  exact Nat.lt_of_lt_of_le inside h.bounded

theorem get?_eq_some_iff (h : Ordered history) :
    history.get? version = some value ↔ (version, value) ∈ history.entries := by
  unfold get?
  constructor
  · intro found
    obtain ⟨entry, first, rfl⟩ := Option.map_eq_some_iff.1 found
    obtain rfl : entry.1 = version := by simpa using List.find?_some first
    exact List.mem_of_find?_eq_some first
  · intro held
    obtain ⟨newer, older, split⟩ := List.append_of_mem held
    have falling := h.falling
    rw [split] at falling
    have first : history.entries.find? (fun entry => entry.1 = version) =
        some (version, value) := by
      refine List.find?_eq_some_iff_append.2 ⟨by simp, newer, older, split, ?_⟩
      intro entry he
      have above := (List.pairwise_append.1 falling).2.2 entry he _ List.mem_cons_self
      simpa using (UInt64.ne_of_lt above).symm
    rw [first]
    rfl

/-- All that a drop takes away is at or before its bound. -/
theorem le_of_mem_dropWhile {entries : List (Version × α)} {bound : Version}
    (falling : entries.Pairwise fun newer older => older.1 < newer.1) :
    ∀ entry ∈ entries.dropWhile (fun entry => bound < entry.1), entry.1 ≤ bound := by
  induction entries with
  | nil => exact fun entry he => absurd he List.not_mem_nil
  | cons newest rest ih =>
    obtain ⟨above, falling⟩ := List.pairwise_cons.1 falling
    by_cases later : bound < newest.1
    · rw [List.dropWhile_cons_of_pos (by simpa using later)]
      exact ih falling
    · rw [List.dropWhile_cons_of_neg (by simpa using later)]
      intro entry he
      have first := UInt64.not_lt.1 later
      rcases List.mem_cons.1 he with rfl | older
      · exact first
      · exact UInt64.le_of_lt (UInt64.lt_of_lt_of_le (above entry older) first)

theorem dropThrough_getElem? (h : Ordered history) {bound : Version} {age : Nat} :
    (history.dropThrough bound).entries[age]? = some (version, value) ↔
      history.entries[age]? = some (version, value) ∧ bound < version := by
  have parts : (history.dropThrough bound).entries ++
      history.entries.dropWhile (fun entry => bound < entry.1) = history.entries :=
    List.takeWhile_append_dropWhile
  constructor
  · intro held
    have later : bound < version := by
      simpa using List.mem_takeWhile_imp (List.mem_of_getElem? held)
    obtain ⟨inside, -⟩ := List.getElem?_eq_some_iff.1 held
    refine ⟨?_, later⟩
    rw [← parts, List.getElem?_append_left inside]
    exact held
  · rintro ⟨held, later⟩
    rw [← parts] at held
    by_cases inside : age < (history.dropThrough bound).entries.length
    · rwa [List.getElem?_append_left inside] at held
    · rw [List.getElem?_append_right (Nat.not_lt.1 inside)] at held
      have dropped := le_of_mem_dropWhile h.falling _ (List.mem_of_getElem? held)
      exact absurd later (UInt64.not_lt.2 dropped)

end Ordered

namespace Call

/-- The call neither clears the history nor drops `version` from it. -/
def Spares (version : Version) : Call α → Prop
  | .insert _ _ => True
  | .dropThrough bound => bound < version
  | .clear => False

end Call

/-- What one call makes of the entries: the one that it adds comes first, and those that it spares
move back behind it, as far as there is room. -/
theorem Ordered.entry_perform_iff (h : Ordered history) (call : Call α) (age : Nat) :
    (history.perform call).entries[age]? = some (version, value) ↔
      (call = .insert version value ∧ history.accepts call ∧ age = 0) ∨
        ∃ before, history.entries[before]? = some (version, value) ∧ call.Spares version ∧
          age = before + (if history.accepts call then 1 else 0) ∧ age < history.capacity := by
  cases call with
  | insert other new =>
    rcases history.insert_cases other new with ⟨last, -, -, refused⟩ | ⟨-, taken⟩
    · obtain ⟨same, no⟩ := perform_of_error refused
      rw [same, no]
      constructor
      · intro held
        exact .inr ⟨age, held, trivial, rfl, h.lt_capacity held⟩
      · rintro (⟨-, ⟨⟩, -⟩ | ⟨before, held, -, rfl, -⟩)
        exact held
    · obtain ⟨next, yes⟩ := perform_of_ok taken
      rw [next, yes]
      cases age with
      | zero =>
        constructor
        · rintro ⟨⟩
          exact .inl ⟨rfl, rfl, rfl⟩
        · rintro (⟨⟨⟩, -⟩ | ⟨before, -, -, behind, -⟩)
          · rfl
          · exact absurd behind (Nat.succ_ne_zero before).symm
      | succ before =>
        rw [push_getElem?_succ h.room]
        constructor
        · intro held
          obtain ⟨room, held⟩ := Option.ite_none_right_eq_some.1 held
          exact .inr ⟨before, held, trivial, rfl, room⟩
        · rintro (⟨-, -, ⟨⟩⟩ | ⟨before, held, -, ⟨⟩, room⟩)
          rwa [if_pos room]
  | dropThrough bound =>
    refine h.dropThrough_getElem?.trans ⟨?_, ?_⟩
    · rintro ⟨held, later⟩
      exact .inr ⟨age, held, later, rfl, h.lt_capacity held⟩
    · rintro (⟨⟨⟩, -⟩ | ⟨before, held, later, rfl, -⟩)
      exact ⟨held, later⟩
  | clear =>
    constructor
    · intro held
      cases held
    · rintro (⟨⟨⟩, -⟩ | ⟨before, -, ⟨⟩, -⟩)

/-- One of the calls added the entry, none behind it took it away, and `age` of those added one. -/
def Added (history : History α) (calls : List (Call α)) (version : Version) (value : α)
    (age : Nat) : Prop :=
  ∃ earlier later, calls = earlier ++ .insert version value :: later ∧
    (history.play earlier).accepts (.insert version value) ∧
    (∀ call ∈ later, call.Spares version) ∧
    (history.play (earlier ++ [.insert version value])).accepted later = age

theorem added_concat_iff {calls : List (Call α)} {call : Call α} {age : Nat} :
    history.Added (calls ++ [call]) version value age ↔
      (call = .insert version value ∧ (history.play calls).accepts call ∧ age = 0) ∨
        ∃ before, history.Added calls version value before ∧ call.Spares version ∧
          age = before + if (history.play calls).accepts call then 1 else 0 := by
  constructor
  · rintro ⟨earlier, later, split, taken, spared, rfl⟩
    rcases List.eq_nil_or_concat later with rfl | ⟨later, last, rfl⟩
    · obtain ⟨rfl, same⟩ := List.append_inj' split rfl
      obtain rfl : call = .insert version value := List.singleton_inj.1 same
      exact .inl ⟨rfl, taken, rfl⟩
    · rw [List.concat_eq_append] at split spared ⊢
      rw [← List.cons_append, ← List.append_assoc] at split
      obtain ⟨rfl, same⟩ := List.append_inj' split rfl
      obtain rfl : call = last := List.singleton_inj.1 same
      rw [List.forall_mem_append] at spared
      refine .inr ⟨_, ⟨earlier, later, rfl, taken, spared.1, rfl⟩, ?_, ?_⟩
      · exact spared.2 call (List.mem_singleton_self call)
      · rw [accepted_concat, ← play_split]
  · rintro (⟨rfl, taken, rfl⟩ | ⟨before, ⟨earlier, later, rfl, taken, spared, rfl⟩, spares, rfl⟩)
    · exact ⟨calls, [], rfl, taken, fun call hc => absurd hc List.not_mem_nil, rfl⟩
    · refine ⟨earlier, later ++ [call], ?_, taken, ?_, ?_⟩
      · rw [List.append_assoc, List.cons_append]
      · exact List.forall_mem_append.2 ⟨spared, List.forall_mem_singleton.2 spares⟩
      · rw [accepted_concat, ← play_split]

/-- The entry at each place is the one that so many others were added behind. -/
theorem entry_play_iff (capacity : Nat) (calls : List (Call α)) (age : Nat) :
    ((ofCapacity capacity).play calls).entries[age]? = some (version, value) ↔
      (ofCapacity capacity).Added calls version value age ∧ age < max capacity 1 := by
  induction calls using List.reverseRecOn generalizing age with
  | nil =>
    refine iff_of_false nofun ?_
    rintro ⟨⟨earlier, later, split, -⟩, -⟩
    simp at split
  | append_singleton calls call ih =>
    have ordered : Ordered ((ofCapacity capacity).play calls) :=
      (Ordered.of_capacity capacity).play calls
    rw [play_concat, ordered.entry_perform_iff, added_concat_iff, play_capacity, ofCapacity]
    constructor
    · rintro (⟨same, taken, rfl⟩ | ⟨before, held, spared, rfl, inside⟩)
      · exact ⟨.inl ⟨same, taken, rfl⟩, Nat.lt_of_lt_of_le Nat.one_pos (Nat.le_max_right _ _)⟩
      · exact ⟨.inr ⟨before, ((ih before).1 held).1, spared, rfl⟩, inside⟩
    · rintro ⟨⟨same, taken, rfl⟩ | ⟨before, added, spared, rfl⟩, inside⟩
      · exact .inl ⟨same, taken, rfl⟩
      · have := (ih before).2 ⟨added, Nat.lt_of_le_of_lt (Nat.le_add_right _ _) inside⟩
        exact .inr ⟨before, this, spared, rfl, inside⟩

section Search

/-- Looks for a version among the entries from `low` up to `high`, oldest first: the one in the
middle tells in which half it can be. -/
def bisect (ring : List (Version × α)) (version : Version) (low high : Nat)
    (inside : high ≤ ring.length) : Option α :=
  if h : low < high then
    let middle := (low + high) / 2
    have : middle < ring.length := by omega
    if ring[middle].1 = version then
      some ring[middle].2
    else if ring[middle].1 < version then
      bisect ring version (middle + 1) high inside
    else
      bisect ring version low middle (by omega)
  else
    none
termination_by high - low

/-- Finds an entry in the ring of entries, oldest first, by halving. -/
def search? (history : History α) (version : Version) : Option α :=
  bisect history.entries.reverse version 0 _ (Nat.le_refl _)

variable {ring : List (Version × α)}

theorem version_lt_iff (ascending : ring.Pairwise fun older newer => older.1 < newer.1) {i j : Nat}
    {one other : Version × α} (first : ring[i]? = some one) (second : ring[j]? = some other) :
    one.1 < other.1 ↔ i < j := by
  obtain ⟨hi, rfl⟩ := List.getElem?_eq_some_iff.1 first
  obtain ⟨hj, rfl⟩ := List.getElem?_eq_some_iff.1 second
  have order := List.pairwise_iff_getElem.1 ascending
  constructor
  · intro lt
    by_contra behind
    rcases Nat.lt_or_eq_of_le (Nat.not_lt.1 behind) with later | rfl
    · exact UInt64.lt_irrefl _ (UInt64.lt_trans lt (order j i hj hi later))
    · exact UInt64.lt_irrefl _ lt
  · exact order i j hi hj

theorem bisect_eq_some_iff (ascending : ring.Pairwise fun older newer => older.1 < newer.1)
    {low high : Nat} (inside : high ≤ ring.length) :
    bisect ring version low high inside = some value ↔
      ∃ i, low ≤ i ∧ i < high ∧ ring[i]? = some (version, value) := by
  fun_induction bisect ring version low high inside with
  | case1 low high inside h middle bound found =>
    have here : ring[middle]? = some ring[middle] := List.getElem?_eq_getElem bound
    constructor
    · intro answer
      refine ⟨middle, by omega, by omega, here.trans ?_⟩
      rw [← found, ← Option.some.inj answer]
    · rintro ⟨i, -, -, held⟩
      have before := (version_lt_iff ascending held here).not.1 (by simp [found])
      have behind := (version_lt_iff ascending here held).not.1 (by simp [found])
      obtain rfl : i = middle := by omega
      rw [Option.some.inj (here.symm.trans held)]
  | case2 low high inside h middle bound other below ih =>
    have here : ring[middle]? = some ring[middle] := List.getElem?_eq_getElem bound
    rw [ih]
    constructor
    · rintro ⟨i, first, last, held⟩
      exact ⟨i, by omega, last, held⟩
    · rintro ⟨i, -, last, held⟩
      exact ⟨i, (version_lt_iff ascending here held).1 below, last, held⟩
  | case3 low high inside h middle bound other above ih =>
    have here : ring[middle]? = some ring[middle] := List.getElem?_eq_getElem bound
    have beyond : version < ring[middle].1 :=
      UInt64.lt_of_le_of_ne (UInt64.not_lt.1 above) (Ne.symm other)
    rw [ih]
    constructor
    · rintro ⟨i, first, last, held⟩
      exact ⟨i, first, by omega, held⟩
    · rintro ⟨i, first, -, held⟩
      exact ⟨i, first, (version_lt_iff ascending held here).1 beyond, held⟩
  | case4 low high inside h =>
    refine iff_of_false nofun ?_
    rintro ⟨i, first, last, -⟩
    omega

theorem Ordered.search?_eq (h : Ordered history) (version : Version) :
    history.search? version = history.get? version := by
  have ascending : history.entries.reverse.Pairwise fun older newer => older.1 < newer.1 :=
    List.pairwise_reverse.2 h.falling
  apply Option.ext
  intro value
  rw [search?, bisect_eq_some_iff ascending, h.get?_eq_some_iff, ← List.mem_reverse,
    List.mem_iff_getElem?]
  constructor
  · rintro ⟨i, -, -, held⟩
    exact ⟨i, held⟩
  · rintro ⟨i, held⟩
    obtain ⟨inside, -⟩ := List.getElem?_eq_some_iff.1 held
    exact ⟨i, Nat.zero_le i, inside, held⟩

end Search

theorem Ordered.isGreatest_iff (h : Ordered history) {last : Version} :
    IsGreatest {held | (history.get? held).isSome} last ↔ history.lastVersion = some last := by
  have mem : ∀ {version : Version}, version ∈ {held | (history.get? held).isSome} ↔
      ∃ value, (version, value) ∈ history.entries := by
    intro version
    exact Option.isSome_iff_exists.trans (exists_congr fun _ => h.get?_eq_some_iff)
  constructor
  · rintro ⟨held, above⟩
    obtain ⟨value, held⟩ := mem.1 held
    obtain ⟨top, rest, split⟩ := List.exists_cons_of_ne_nil (List.ne_nil_of_mem held)
    have newest : history.lastVersion = some top.1 := by
      rw [lastVersion, split]
      rfl
    have top_le : top.1 ≤ last := above (mem.2 ⟨top.2, by rw [split]; exact List.mem_cons_self⟩)
    rw [newest, UInt64.le_antisymm top_le (le_last h.falling newest held)]
  · intro newest
    obtain ⟨top, first, rfl⟩ := Option.map_eq_some_iff.1 newest
    refine ⟨mem.2 ⟨top.2, List.mem_of_mem_head? first⟩, ?_⟩
    intro version held
    obtain ⟨value, held⟩ := mem.1 held
    exact le_last h.falling newest held

theorem Ordered.insert_eq_error_iff (h : Ordered history) {error : HistoryError} :
    history.insert version value = .error error ↔
      ∃ last, IsGreatest {held | (history.get? held).isSome} last ∧ version ≤ last ∧
        error = .outOfOrder last version := by
  simp only [h.isGreatest_iff]
  rcases history.insert_cases version value with ⟨last, newest, late, refused⟩ | ⟨after, taken⟩
  · rw [refused, newest]
    constructor
    · rintro ⟨⟩
      exact ⟨last, rfl, late, rfl⟩
    · rintro ⟨_, ⟨⟩, -, rfl⟩
      rfl
  · rw [taken]
    refine iff_of_false nofun ?_
    rintro ⟨last, newest, late, -⟩
    exact UInt64.not_le.2 (after last newest) late

theorem perform_insert_eq_self_iff :
    history.perform (.insert version value) = history ↔
      ∃ error, history.insert version value = .error error := by
  rcases history.insert_cases version value with ⟨last, -, -, refused⟩ | ⟨after, taken⟩
  · exact iff_of_true (perform_of_error refused).1 ⟨_, refused⟩
  · rw [(perform_of_ok taken).1, taken]
    refine iff_of_false ?_ nofun
    intro same
    have newest : history.lastVersion = some version := by
      rw [← same]
      rfl
    exact UInt64.lt_irrefl _ (after version newest)

/-- Whatever is added, dropped and cleared, and in whatever order: an entry is refused exactly if
its version is not above the greatest one held, and then nothing changes; a lookup finds exactly the
entries that were added and neither cleared, dropped nor followed by as many others as the history
has room for; and a search that halves the entries finds the same. -/
theorem lookups_follow_calls (capacity : Nat) (calls : List (Call α)) :
    let start : History α := ofCapacity capacity
    let history := start.play calls
    (∀ version value, (∀ error, history.insert version value = .error error ↔
        ∃ last, IsGreatest {held | (history.get? held).isSome} last ∧ version ≤ last ∧
          error = .outOfOrder last version) ∧
      (history.perform (.insert version value) = history ↔
        ∃ error, history.insert version value = .error error)) ∧
    (∀ version value, history.get? version = some value ↔
      ∃ earlier later, calls = earlier ++ .insert version value :: later ∧
        (start.play earlier).accepts (.insert version value) ∧
        (∀ call ∈ later, call.Spares version) ∧
        (start.play (earlier ++ [.insert version value])).accepted later < max capacity 1) ∧
    (∀ version, history.search? version = history.get? version) ∧
    history.size ≤ max capacity 1 := by
  intro start history
  have ordered : Ordered history := (Ordered.of_capacity capacity).play calls
  have room : history.capacity = max capacity 1 := play_capacity start calls
  refine ⟨?_, ?_, ordered.search?_eq, ?_⟩
  · intro version value
    exact ⟨fun _ => ordered.insert_eq_error_iff, perform_insert_eq_self_iff⟩
  · intro version value
    rw [ordered.get?_eq_some_iff, List.mem_iff_getElem?]
    simp only [history, start, entry_play_iff]
    constructor
    · rintro ⟨age, ⟨earlier, later, split, taken, spared, rfl⟩, inside⟩
      exact ⟨earlier, later, split, taken, spared, inside⟩
    · rintro ⟨earlier, later, split, taken, spared, inside⟩
      exact ⟨_, ⟨earlier, later, split, taken, spared, rfl⟩, inside⟩
  · rw [← room]
    exact ordered.bounded

/-- Once all is dropped, a version from before counts anew, with its new value. -/
example :
    ((ofCapacity 2).play
        [.insert 4 'a', .insert 7 'b', .dropThrough 7, .insert 4 'c']).entries = [(4, 'c')] := by
  decide

end AreaReplication.History
