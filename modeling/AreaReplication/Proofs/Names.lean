import AreaReplication.Replica.Names
import Mathlib.Data.List.TakeWhile

/-!
# Network ids are used by one entity at a time

The numbers in use, free and in quarantine stay apart, and a number that is given out is in neither
of the other two groups. Nothing is assumed of the watermarks.
-/
namespace AreaReplication.Names

/-- The number has been given back and may still be mentioned. -/
def Quarantined (names : Names) (id : NetId) : Prop :=
  ∃ watermark, (watermark, id) ∈ names.quarantine

/-- The two maps are inverse, and the three groups of numbers are apart and below `next`. -/
structure Sound (names : Names) : Prop where
  inverse : ∀ id entity, names.entityOf? id = some entity ↔ names.idOf? entity = some id
  used_below : ∀ id entity, names.entityOf? id = some entity → id < names.next
  free_below : ∀ id ∈ names.free, id < names.next
  quarantined_below : ∀ id, names.Quarantined id → id < names.next
  used_not_free : ∀ id entity, names.entityOf? id = some entity → id ∉ names.free
  used_not_quarantined : ∀ id entity, names.entityOf? id = some entity → ¬ names.Quarantined id
  free_not_quarantined : ∀ id ∈ names.free, ¬ names.Quarantined id
  once : (names.quarantine.map (·.2)).Nodup

theorem new_sound (next : NetId) : Sound { next } := by
  constructor <;> simp [entityOf?, idOf?, Quarantined]

variable {names : Names}

/-- What is known of a number that is about to be given out, and of the table without it. -/
structure Fresh (names : Names) (id : NetId) (rest : Names) : Prop where
  unused : names.entityOf? id = none
  unquarantined : ¬ names.Quarantined id
  entities : rest.entities = names.entities
  ids : rest.ids = names.ids
  quarantine : rest.quarantine = names.quarantine
  taken : id ∉ rest.free
  free : ∀ other ∈ rest.free, other ∈ names.free
  below : id < rest.next
  grows : names.next ≤ rest.next

theorem lt_succ_iff {next id : NetId} (room : next.toNat + 1 < UInt32.size) :
    id < next + 1 ↔ id < next ∨ id = next := by
  have succ : (next + 1).toNat = next.toNat + 1 := by
    rw [UInt32.toNat_add]
    exact Nat.mod_eq_of_lt room
  rw [UInt32.lt_iff_toNat_lt, UInt32.lt_iff_toNat_lt, ← UInt32.toNat_inj, succ]
  omega

theorem take?_cases (names : Names) :
    (∃ id, names.free.min? = some id ∧
        names.take? = some (id, { names with free := names.free.erase id })) ∨
      (names.free = ∅ ∧ names.next.toNat + 1 < UInt32.size ∧
        names.take? = some (names.next, { names with next := names.next + 1 })) ∨
      (names.free = ∅ ∧ ¬ names.next.toNat + 1 < UInt32.size ∧ names.take? = none) := by
  cases least : names.free.min? with
  | some id => exact .inl ⟨id, rfl, by rw [take?, least]⟩
  | none =>
    have empty := Std.ExtTreeSet.min?_eq_none_iff.1 least
    by_cases room : names.next.toNat + 1 < UInt32.size
    · exact .inr (.inl ⟨empty, room, by simp only [take?, least, if_pos room]⟩)
    · exact .inr (.inr ⟨empty, room, by simp only [take?, least, if_neg room]⟩)

theorem take?_fresh (h : Sound names) {id : NetId} {rest : Names}
    (ht : names.take? = some (id, rest)) : Fresh names id rest := by
  rcases names.take?_cases with ⟨least, hm, hc⟩ | ⟨-, hroom, hc⟩ | ⟨-, -, hc⟩
  · obtain ⟨rfl, rfl⟩ : least = id ∧ _ = rest := by simpa using hc.symm.trans ht
    have hfree : least ∈ names.free := (Std.ExtTreeSet.min?_eq_some_iff_mem_and_forall.1 hm).1
    refine ⟨?_, h.free_not_quarantined _ hfree, rfl, rfl, rfl, ?_, ?_, h.free_below _ hfree,
      UInt32.le_rfl⟩
    · by_contra hu
      obtain ⟨entity, he⟩ := Option.ne_none_iff_exists'.1 hu
      exact h.used_not_free _ _ he hfree
    · simp [Std.ExtTreeSet.mem_erase]
    · intro other ho
      exact (Std.ExtTreeSet.mem_erase.1 ho).2
  · obtain ⟨rfl, rfl⟩ : names.next = id ∧ _ = rest := by simpa using hc.symm.trans ht
    have hlt : names.next < names.next + 1 := (lt_succ_iff hroom).2 (.inr rfl)
    refine ⟨?_, ?_, rfl, rfl, rfl, ?_, fun _ ho => ho, hlt, UInt32.le_of_lt hlt⟩
    · by_contra hu
      obtain ⟨entity, he⟩ := Option.ne_none_iff_exists'.1 hu
      exact UInt32.lt_irrefl _ (h.used_below _ _ he)
    · intro hq
      exact UInt32.lt_irrefl _ (h.quarantined_below _ hq)
    · intro hf
      exact UInt32.lt_irrefl _ (h.free_below _ hf)
  · cases hc.symm.trans ht

/-- The table once `id`, just taken from it, belongs to `entity`. -/
def bind (rest : Names) (id : NetId) (entity : EntityId) : Names :=
  { rest with entities := rest.entities.insert id entity, ids := rest.ids.insert entity id }

theorem assign_cases (names : Names) (entity : EntityId) :
    (∃ id, names.idOf? entity = some id ∧ names.assign entity = ⟨(some id, names), []⟩) ∨
      (∃ id rest, names.idOf? entity = none ∧ names.take? = some (id, rest) ∧
        names.assign entity = ⟨(some id, rest.bind id entity), [.idAssigned id entity]⟩) ∨
      names.assign entity = ⟨(none, names), []⟩ := by
  unfold assign
  cases hi : names.idOf? entity with
  | some id => exact .inl ⟨id, rfl, rfl⟩
  | none =>
    cases ht : names.take? with
    | some taken => exact .inr (.inl ⟨taken.1, taken.2, rfl, rfl, rfl⟩)
    | none => exact .inr (.inr rfl)

theorem assign_quarantine (names : Names) (entity : EntityId) :
    (names.assign entity).value.2.quarantine = names.quarantine := by
  rcases names.assign_cases entity with ⟨_, _, hc⟩ | ⟨id, rest, _, ht, hc⟩ | hc
  · rw [hc]
  · rw [hc]
    rcases names.take?_cases with ⟨_, _, hf⟩ | ⟨_, _, hf⟩ | ⟨_, _, hf⟩
    · cases hf.symm.trans ht
      rfl
    · cases hf.symm.trans ht
      rfl
    · cases hf.symm.trans ht
  · rw [hc]

/-- Only a number that is fresh is noted as given out. -/
theorem assign_events (h : Sound names) {entity : EntityId} {event : Event}
    (he : event ∈ (names.assign entity).events) :
    ∃ id rest, event = .idAssigned id entity ∧ Fresh names id rest := by
  rcases names.assign_cases entity with ⟨_, _, hc⟩ | ⟨id, rest, _, ht, hc⟩ | hc
  · simp [hc] at he
  · rw [hc] at he
    exact ⟨id, rest, List.mem_singleton.1 he, take?_fresh h ht⟩
  · simp [hc] at he

section Bind

variable {id : NetId} {rest : Names} {entity : EntityId}

theorem Fresh.entityOf?_bind (h : Fresh names id rest) (other : NetId) :
    (rest.bind id entity).entityOf? other =
      if id = other then some entity else names.entityOf? other := by
  simp [entityOf?, bind, Std.ExtTreeMap.getElem?_insert, h.entities]

theorem Fresh.idOf?_bind (h : Fresh names id rest) (other : EntityId) :
    (rest.bind id entity).idOf? other =
      if entity = other then some id else names.idOf? other := by
  simp [idOf?, bind, Std.ExtTreeMap.getElem?_insert, h.ids]

theorem Fresh.quarantined_bind (h : Fresh names id rest) (other : NetId) :
    (rest.bind id entity).Quarantined other ↔ names.Quarantined other := by
  simp only [Quarantined, bind, h.quarantine]

theorem Fresh.bind_sound (h : Fresh names id rest) (hs : Sound names)
    (hn : names.idOf? entity = none) : Sound (rest.bind id entity) where
  inverse other owner := by
    rw [h.entityOf?_bind, h.idOf?_bind]
    have hi := hs.inverse other owner
    by_cases ho : id = other
    · subst ho
      have hu := h.unused
      by_cases he : entity = owner
      · simp [he]
      · simpa [he, hu] using hi
    · by_cases he : entity = owner
      · subst he
        simpa [ho, hn] using hi
      · simpa [ho, he] using hi
  used_below other owner hu := by
    rw [h.entityOf?_bind] at hu
    split_ifs at hu with ho
    · exact ho ▸ h.below
    · exact UInt32.lt_of_lt_of_le (hs.used_below other owner hu) h.grows
  free_below other hf := UInt32.lt_of_lt_of_le (hs.free_below other (h.free other hf)) h.grows
  quarantined_below other hq :=
    UInt32.lt_of_lt_of_le (hs.quarantined_below other ((h.quarantined_bind other).1 hq)) h.grows
  used_not_free other owner hu hf := by
    rw [h.entityOf?_bind] at hu
    split_ifs at hu with ho
    · exact h.taken (ho ▸ hf)
    · exact hs.used_not_free other owner hu (h.free other hf)
  used_not_quarantined other owner hu hq := by
    have hq := (h.quarantined_bind other).1 hq
    rw [h.entityOf?_bind] at hu
    split_ifs at hu with ho
    · exact h.unquarantined (ho ▸ hq)
    · exact hs.used_not_quarantined other owner hu hq
  free_not_quarantined other hf hq :=
    hs.free_not_quarantined other (h.free other hf) ((h.quarantined_bind other).1 hq)
  once := by
    have := hs.once
    rwa [← h.quarantine] at this

end Bind

theorem assign_sound (h : Sound names) (entity : EntityId) :
    Sound (names.assign entity).value.2 := by
  rcases names.assign_cases entity with ⟨_, _, ha⟩ | ⟨id, rest, hn, ht, ha⟩ | ha
  · rw [ha]; exact h
  · rw [ha]; exact (take?_fresh h ht).bind_sound h hn
  · rw [ha]; exact h

/-- The number that `assign` answers belongs to the entity from then on; no other number changes
hands. -/
theorem assign_entityOf? (h : Sound names) {entity : EntityId} {id : NetId} {after : Names}
    {events : List Event} (ha : names.assign entity = ⟨(some id, after), events⟩) :
    after.entityOf? id = some entity ∧
      ∀ other, other ≠ id → after.entityOf? other = names.entityOf? other := by
  rcases names.assign_cases entity with ⟨used, hi, hc⟩ | ⟨taken, rest, hn, ht, hc⟩ | hc
  · obtain ⟨⟨rfl, rfl⟩, rfl⟩ : (used = id ∧ names = after) ∧ [] = events := by
      simpa using hc.symm.trans ha
    exact ⟨(h.inverse _ _).2 hi, fun _ _ => rfl⟩
  · obtain ⟨⟨rfl, rfl⟩, rfl⟩ : (taken = id ∧ rest.bind taken entity = after) ∧ _ = events := by
      simpa using hc.symm.trans ha
    have hf := take?_fresh h ht
    refine ⟨by simp [hf.entityOf?_bind], fun other ho => ?_⟩
    simp [hf.entityOf?_bind, ho.symm]
  · rw [hc] at ha
    cases ha

section Retire

variable (names) (id : NetId) (watermark : MessageId)

theorem retire_none (h : names.entityOf? id = none) : names.retire id watermark = ⟨names, []⟩ := by
  simp only [retire, h]
  rfl

theorem retire_some {entity : EntityId} (h : names.entityOf? id = some entity) :
    names.retire id watermark = ⟨{ names with
      entities := names.entities.erase id
      ids := names.ids.erase entity
      quarantine := (watermark, id) :: names.quarantine }, [.idRetired id entity watermark]⟩ := by
  simp only [retire, h]
  rfl

theorem retire_entityOf? (other : NetId) :
    (names.retire id watermark).value.entityOf? other =
      if id = other then none else names.entityOf? other := by
  cases he : names.entityOf? id with
  | none =>
    rw [names.retire_none id watermark he]
    split_ifs with ho
    · exact ho ▸ he
    · rfl
  | some entity =>
    rw [names.retire_some id watermark he]
    simp [entityOf?, Std.ExtTreeMap.getElem?_erase]

theorem retire_events {event : Event} (he : event ∈ (names.retire id watermark).events) :
    ∃ entity, event = .idRetired id entity watermark := by
  cases hu : names.entityOf? id with
  | none => simp [names.retire_none id watermark hu] at he
  | some entity =>
    rw [names.retire_some id watermark hu] at he
    exact ⟨entity, List.mem_singleton.1 he⟩

variable {names id}

theorem retire_quarantine {entity : EntityId} (h : names.entityOf? id = some entity) :
    (names.retire id watermark).value.quarantine = (watermark, id) :: names.quarantine := by
  rw [names.retire_some id watermark h]

theorem retire_idOf? {entity : EntityId} (h : names.entityOf? id = some entity) (owner : EntityId) :
    (names.retire id watermark).value.idOf? owner =
      if entity = owner then none else names.idOf? owner := by
  rw [names.retire_some id watermark h]
  simp [idOf?, Std.ExtTreeMap.getElem?_erase]

theorem retire_quarantined {entity : EntityId} (h : names.entityOf? id = some entity)
    {other : NetId} : (names.retire id watermark).value.Quarantined other ↔
      other = id ∨ names.Quarantined other := by
  simp only [Quarantined, retire_quarantine watermark h, List.mem_cons, Prod.mk.injEq]
  constructor
  · rintro ⟨mark, ⟨-, rfl⟩ | hm⟩
    · exact .inl rfl
    · exact .inr ⟨mark, hm⟩
  · rintro (rfl | ⟨mark, hm⟩)
    · exact ⟨watermark, .inl ⟨rfl, rfl⟩⟩
    · exact ⟨mark, .inr hm⟩

/-- Two inverse maps that lose a pair stay inverse. -/
theorem Sound.inverse_without (h : Sound names) {entity : EntityId}
    (he : names.entityOf? id = some entity) (other : NetId) (owner : EntityId) :
    (if id = other then none else names.entityOf? other) = some owner ↔
      (if entity = owner then none else names.idOf? owner) = some other := by
  have hi := h.inverse other owner
  by_cases ho : id = other
  · subst ho
    by_cases hown : entity = owner
    · simp [hown]
    · have hne : names.idOf? owner ≠ some id := fun hc =>
        hown (Option.some.inj (he.symm.trans (hi.2 hc)))
      simpa [hown] using hne
  · by_cases hown : entity = owner
    · subst hown
      have hne : names.entityOf? other ≠ some entity := fun hc =>
        ho (Option.some.inj (((h.inverse id entity).1 he).symm.trans (hi.1 hc)))
      simpa [ho] using hne
    · simpa [ho, hown] using hi

theorem retire_sound (h : Sound names) : Sound (names.retire id watermark).value := by
  cases he : names.entityOf? id with
  | none =>
    rw [names.retire_none id watermark he]
    exact h
  | some entity =>
    have held : ∀ other owner, (names.retire id watermark).value.entityOf? other = some owner →
        id ≠ other ∧ names.entityOf? other = some owner := by
      intro other owner ho
      rw [retire_entityOf?] at ho
      split_ifs at ho with hid
      exact ⟨hid, ho⟩
    have rest : (names.retire id watermark).value.next = names.next ∧
        (names.retire id watermark).value.free = names.free := by
      rw [names.retire_some id watermark he]
      exact ⟨rfl, rfl⟩
    constructor
    · intro other owner
      rw [retire_entityOf?, retire_idOf? watermark he]
      exact h.inverse_without he other owner
    · intro other owner hu
      rw [rest.1]
      exact h.used_below other owner (held other owner hu).2
    · rw [rest.1, rest.2]
      exact h.free_below
    · intro other hq
      rw [rest.1]
      rcases (retire_quarantined watermark he).1 hq with rfl | hq
      · exact h.used_below other entity he
      · exact h.quarantined_below other hq
    · intro other owner hu
      rw [rest.2]
      exact h.used_not_free other owner (held other owner hu).2
    · intro other owner hu hq
      obtain ⟨hne, hu⟩ := held other owner hu
      rcases (retire_quarantined watermark he).1 hq with rfl | hq
      · exact hne rfl
      · exact h.used_not_quarantined other owner hu hq
    · intro other hf hq
      rw [rest.2] at hf
      rcases (retire_quarantined watermark he).1 hq with rfl | hq
      · exact h.used_not_free other entity he hf
      · exact h.free_not_quarantined other hf hq
    · rw [retire_quarantine watermark he]
      refine List.nodup_cons.2 ⟨fun hm => ?_, h.once⟩
      obtain ⟨⟨mark, other⟩, hq, rfl⟩ := List.mem_map.1 hm
      exact h.used_not_quarantined other entity he ⟨mark, hq⟩

end Retire

section Release

variable (names) (settledBefore : MessageId)

/-- The released entries are the oldest ones of the quarantine; the others stay. -/
theorem release_quarantine : names.quarantine =
    (names.release settledBefore).2.quarantine ++ (names.released settledBefore).reverse := by
  have hsplit := List.takeWhile_append_dropWhile
    (p := fun entry : MessageId × NetId => decide (entry.1 < settledBefore))
    (l := names.quarantine.reverse)
  have hq := congrArg List.reverse hsplit
  rw [List.reverse_append, List.reverse_reverse] at hq
  have hlen := congrArg List.length hq
  have hreleased : (names.released settledBefore).reverse.length =
      (names.released settledBefore).length := List.length_reverse
  rw [List.length_append, ← released, hreleased] at hlen
  have hheld : (names.release settledBefore).2.quarantine =
      (names.quarantine.reverse.dropWhile fun entry => entry.1 < settledBefore).reverse := by
    calc (names.release settledBefore).2.quarantine
      _ = names.quarantine.take
            (names.quarantine.length - (names.released settledBefore).length) := rfl
      _ = _ := by
        rw [← hlen, Nat.add_sub_cancel]
        exact (congrArg (List.take _) hq.symm).trans (List.take_left' rfl)
  rw [hheld]
  exact hq.symm

theorem foldl_insert_mem (entries : List (MessageId × NetId)) (free : Std.ExtTreeSet NetId)
    (id : NetId) : id ∈ entries.foldl (fun free entry => free.insert entry.2) free ↔
      id ∈ free ∨ ∃ watermark, (watermark, id) ∈ entries := by
  induction entries generalizing free with
  | nil => simp
  | cons entry rest ih =>
    simp only [List.foldl_cons, ih, Std.ExtTreeSet.mem_insert, Std.LawfulEqCmp.compare_eq_iff_eq,
      List.mem_cons]
    constructor
    · rintro ((rfl | hf) | ⟨mark, hm⟩)
      · exact .inr ⟨entry.1, .inl rfl⟩
      · exact .inl hf
      · exact .inr ⟨mark, .inr hm⟩
    · rintro (hf | ⟨mark, rfl | hm⟩)
      · exact .inl (.inr hf)
      · exact .inl (.inl rfl)
      · exact .inr ⟨mark, hm⟩

variable {names} {settledBefore}

theorem released_below {entry : MessageId × NetId} (h : entry ∈ names.released settledBefore) :
    entry.1 < settledBefore := by
  simpa using List.mem_takeWhile_imp h

/-- An entry that is not settled yet stays in quarantine. -/
theorem release_keeps {entry : MessageId × NetId} (hm : entry ∈ names.quarantine)
    (hu : ¬ entry.1 < settledBefore) : entry ∈ (names.release settledBefore).2.quarantine := by
  rw [names.release_quarantine settledBefore] at hm
  rcases List.mem_append.1 hm with hm | hm
  · exact hm
  · exact absurd (released_below (List.mem_reverse.1 hm)) hu

theorem release_sound (h : Sound names) : Sound (names.release settledBefore).2 := by
  have hq := names.release_quarantine settledBefore
  have once := h.once
  rw [hq, List.map_append, List.nodup_append] at once
  obtain ⟨hheld, -, hapart⟩ := once
  have held : ∀ id, (names.release settledBefore).2.Quarantined id → names.Quarantined id := by
    rintro id ⟨mark, hm⟩
    exact ⟨mark, by rw [hq]; exact List.mem_append_left _ hm⟩
  have freed : ∀ id, id ∈ (names.release settledBefore).2.free →
      id ∈ names.free ∨ ∃ mark, (mark, id) ∈ names.released settledBefore :=
    fun id hf => (foldl_insert_mem _ _ _).1 hf
  have was : ∀ id mark, (mark, id) ∈ names.released settledBefore → names.Quarantined id := by
    intro id mark hm
    exact ⟨mark, by rw [hq]; exact List.mem_append_right _ (List.mem_reverse.2 hm)⟩
  constructor
  · exact h.inverse
  · exact h.used_below
  · intro id hf
    rcases freed id hf with hf | ⟨mark, hm⟩
    · exact h.free_below id hf
    · exact h.quarantined_below id (was id mark hm)
  · exact fun id hi => h.quarantined_below id (held id hi)
  · intro id entity hu hf
    rcases freed id hf with hf | ⟨mark, hm⟩
    · exact h.used_not_free id entity hu hf
    · exact h.used_not_quarantined id entity hu (was id mark hm)
  · exact fun id entity hu hi => h.used_not_quarantined id entity hu (held id hi)
  · intro id hf hi
    rcases freed id hf with hf | ⟨mark, hm⟩
    · exact h.free_not_quarantined id hf (held id hi)
    · obtain ⟨other, ho⟩ := hi
      exact hapart id (List.mem_map.2 ⟨_, ho, rfl⟩) id
        (List.mem_map.2 ⟨_, List.mem_reverse.2 hm, rfl⟩) rfl
  · exact hheld

end Release

end AreaReplication.Names
