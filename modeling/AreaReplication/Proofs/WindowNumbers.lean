import AreaReplication.Proofs.Window
import Mathlib.Algebra.BigOperators.Group.List.Basic
import Mathlib.Data.Finset.Card
import Mathlib.Data.Finset.Dedup
import Mathlib.Data.Nat.Digits.Lemmas
import Mathlib.Data.Set.Function

/-!
# The numbers of a window are its zones

A zone is in view if it is near the center, and no two zones in view have the same digits. A window
that is not cut off has as many zones as there are numbers, so every number stands for one zone.
-/
namespace AreaReplication

namespace Zone

theorem distance_le_iff {center zone : Zone} {bound : Nat} :
    center.distance zone ≤ bound ↔ ∀ axis, (Window.away center zone axis).natAbs ≤ bound := by
  unfold distance Window.away
  constructor
  · intro near axis
    cases axis <;> simp only [coordinate] <;> omega
  · intro near
    have x := near .x
    have y := near .y
    have z := near .z
    simp only [coordinate] at x y z
    omega

theorem ext_coordinate {a b : Zone} (same : ∀ axis, a.coordinate axis = b.coordinate axis) :
    a = b := by
  obtain ⟨x, y, z⟩ := a
  have first : x = b.x := same .x
  have second : y = b.y := same .y
  have third : z = b.z := same .z
  rw [first, second, third]

end Zone

namespace Window

variable {window : Window} {axis : Axis} {center zone other : Zone}

section Near

theorem away_eq_zero : away center zone axis = 0 ↔
    zone.coordinate axis = center.coordinate axis := by
  rw [away, Int.sub_eq_zero, Int32.toInt_inj]

/-- The window goes no further than a coordinate can, as its numbers would not fit otherwise. -/
theorem reach_eq (small : window.size < UInt32.size) (cut : ¬ window.grid.isFlat axis) :
    window.reach = window.radius := by
  have active : axis ∈ window.grid.activeAxes :=
    List.mem_filter.2 ⟨axis.mem_all, by simpa using cut⟩
  have some : window.grid.activeAxes.length ≠ 0 := by
    intro none
    rw [List.length_eq_zero_iff.1 none] at active
    cases active
  have side : window.side ≤ window.size := Nat.le_self_pow some window.side
  have bound : UInt32.size = 4294967296 := rfl
  have last : Zone.maxCoordinate.toNat = 2147483647 := rfl
  unfold Window.side at side
  unfold reach
  omega

theorem near_iff_spans (small : window.size < UInt32.size) :
    window.Near axis (center.coordinate axis) (zone.coordinate axis) ↔
      window.Spans center zone axis := by
  unfold Near Spans
  split_ifs with flat
  · exact away_eq_zero.symm
  · rw [reach_eq small flat, away]

theorem sees_iff_spans (small : window.size < UInt32.size) :
    window.sees center zone ↔ ∀ axis ∈ Axis.all, window.Spans center zone axis := by
  rw [sees_iff]
  constructor
  · intro near axis _
    exact (near_iff_spans small).1 (near axis)
  · intro spans axis
    exact (near_iff_spans small).2 (spans axis axis.mem_all)

theorem spans_iff : (∀ axis ∈ Axis.all, window.Spans center zone axis) ↔
    (∀ axis, window.grid.isFlat axis → zone.coordinate axis = center.coordinate axis) ∧
      center.distance zone ≤ window.radius := by
  rw [Zone.distance_le_iff]
  constructor
  · intro spans
    constructor
    · intro axis flat
      have here := spans axis axis.mem_all
      rw [Spans, if_pos flat] at here
      exact away_eq_zero.1 here
    · intro axis
      have here := spans axis axis.mem_all
      unfold Spans at here
      split_ifs at here
      · omega
      · exact here
  · rintro ⟨level, near⟩ axis -
    unfold Spans
    split_ifs with flat
    · exact away_eq_zero.2 (level axis flat)
    · exact near axis

/-- A step along one axis that the window allows. -/
def Step (window : Window) (axis : Axis) (step : Int32) : Prop :=
  if window.grid.isFlat axis then step = 0 else step.toInt.natAbs ≤ window.reach

/-- A step over the end of the coordinate range stops there, where a shorter one leads as well. -/
theorem near_iff_step {center value : Int32} : window.Near axis center value ↔
    ∃ step, window.Step axis step ∧ Zone.clamp (center.toInt + step.toInt) = value := by
  have low := center.le_toInt
  have high := center.toInt_lt
  unfold Near Step Zone.clamp Zone.minCoordinate Zone.maxCoordinate
  split_ifs
  · have still : max (-2147483648) (min 2147483647 (center.toInt + (0 : Int32).toInt)) =
        center.toInt := by
      have zero : (0 : Int32).toInt = 0 := rfl
      omega
    simp only [exists_eq_left, still, Int32.ofInt_toInt]
    exact eq_comm
  · have left := value.le_toInt
    have right := value.toInt_lt
    have last : window.reach ≤ 2147483647 := Nat.min_le_right _ _
    constructor
    · intro near
      have step : (Int32.ofInt (value.toInt - center.toInt)).toInt =
          value.toInt - center.toInt := Int32.toInt_ofInt_of_le (by omega) (by omega)
      refine ⟨Int32.ofInt (value.toInt - center.toInt), by rw [step]; exact near, ?_⟩
      rw [← Int32.toInt_inj, step, Int32.toInt_ofInt_of_le (by omega) (by omega)]
      omega
    · rintro ⟨step, near, rfl⟩
      rw [Int32.toInt_ofInt_of_le (by omega) (by omega)]
      omega

/-- The zones in view are those that the steps lead to. -/
theorem sees_iff_offset : window.sees center zone ↔ ∃ dx dy dz,
    window.Step .x dx ∧ window.Step .y dy ∧ window.Step .z dz ∧ center.offset dx dy dz = zone := by
  rw [sees_iff]
  constructor
  · intro near
    obtain ⟨dx, stepX, x⟩ := near_iff_step.1 (near .x)
    obtain ⟨dy, stepY, y⟩ := near_iff_step.1 (near .y)
    obtain ⟨dz, stepZ, z⟩ := near_iff_step.1 (near .z)
    refine ⟨dx, dy, dz, stepX, stepY, stepZ, Zone.ext_coordinate fun axis => ?_⟩
    cases axis with
    | x => exact x
    | y => exact y
    | z => exact z
  · rintro ⟨dx, dy, dz, stepX, stepY, stepZ, rfl⟩ axis
    cases axis with
    | x => exact near_iff_step.2 ⟨dx, stepX, rfl⟩
    | y => exact near_iff_step.2 ⟨dy, stepY, rfl⟩
    | z => exact near_iff_step.2 ⟨dz, stepZ, rfl⟩

end Near

section Count

/-- The window is not cut off on any axis. -/
def Whole (window : Window) (center : Zone) : Prop :=
  ∀ axis, ¬ window.grid.isFlat axis →
    Zone.minCoordinate + window.radius ≤ (center.coordinate axis).toInt ∧
      (center.coordinate axis).toInt + window.radius ≤ Zone.maxCoordinate

/-- How many coordinates of an axis are in view, unless the window is cut off there. -/
def extent (window : Window) (axis : Axis) : Nat :=
  if window.grid.isFlat axis then 1 else window.side

theorem size_eq : window.size = (Axis.all.map window.extent).prod := by
  have along : ∀ axes : List Axis, window.side ^ (axes.filter fun axis =>
      !window.grid.isFlat axis).length = (axes.map window.extent).prod := by
    intro axes
    induction axes with
    | nil => rfl
    | cons axis rest ih =>
      rw [List.map_cons, List.prod_cons, List.filter_cons, ← ih, extent]
      cases window.grid.isFlat axis with
      | true => simp
      | false => simp [Nat.pow_succ']
  exact along Axis.all

theorem length_span (small : window.size < UInt32.size) (whole : window.Whole center) :
    (window.span axis (center.coordinate axis)).length = window.extent axis := by
  unfold span extent
  split_ifs with flat
  · rfl
  · obtain ⟨low, high⟩ := whole axis flat
    rw [List.length_map, List.length_range, reach_eq small flat, side]
    omega

theorem length_zonesAround : (window.zonesAround center).length =
    (Axis.all.map fun axis => (window.span axis (center.coordinate axis)).length).prod := by
  simp [zonesAround, List.length_flatMap, Axis.all, Zone.coordinate]

theorem length_whole (small : window.size < UInt32.size) (whole : window.Whole center) :
    (window.zonesAround center).length = window.size := by
  rw [length_zonesAround, size_eq]
  simp only [length_span small whole]

end Count

section Numbered

theorem digit_eq (inside : ∀ axis ∈ Axis.all, window.Spans center zone axis)
    (inside' : ∀ axis ∈ Axis.all, window.Spans center other axis)
    (same : window.rank center zone = window.rank center other)
    (active : axis ∈ window.grid.activeAxes) :
    window.digit center zone axis = window.digit center other axis := by
  have below := window.digits_lt inside
  have below' := window.digits_lt inside'
  by_cases wide : 1 < window.side
  · have digits := Nat.ofDigits_inj_of_len_eq wide (by simp) below below' same
    exact List.map_inj_left.1 digits axis active
  · -- A window of one zone has no use for digits, they all are zero.
    have first := below _ (List.mem_map_of_mem active)
    have second := below' _ (List.mem_map_of_mem active)
    omega

theorem rank_inj (inside : ∀ axis ∈ Axis.all, window.Spans center zone axis)
    (inside' : ∀ axis ∈ Axis.all, window.Spans center other axis)
    (same : window.rank center zone = window.rank center other) : zone = other := by
  refine Zone.ext_coordinate fun axis => ?_
  have here := inside axis axis.mem_all
  have here' := inside' axis axis.mem_all
  unfold Spans at here here'
  split_ifs at here here' with flat
  · rw [away_eq_zero.1 here, away_eq_zero.1 here']
  · have active : axis ∈ window.grid.activeAxes :=
      List.mem_filter.2 ⟨axis.mem_all, by simpa using flat⟩
    have equal := digit_eq inside inside' same active
    unfold digit away at equal
    unfold away at here here'
    rw [← Int32.toInt_inj]
    omega

def numbers (window : Window) : Set (Option UInt32) :=
  some '' {id | 1 ≤ id.toNat ∧ id.toNat ≤ window.size}

variable (small : window.size < UInt32.size) (centered : window.center = some center)

include small centered

theorem mem_zones_iff_spans :
    zone ∈ window.zones ↔ ∀ axis ∈ Axis.all, window.Spans center zone axis := by
  rw [mem_zones, ← sees_iff_spans small]
  simp [centered]

theorem zoneId_isSome_iff : (window.zoneId zone).isSome ↔ zone ∈ window.zones := by
  rw [window.zoneId_eq center zone small centered, mem_zones_iff_spans small centered]
  by_cases inside : ∀ axis ∈ Axis.all, window.Spans center zone axis
  · simp only [if_pos inside, Option.isSome_some, true_iff]
    exact inside
  · simp only [if_neg inside, Option.isSome_none, Bool.false_eq_true, false_iff]
    exact inside

theorem zoneId_of_mem (mem : zone ∈ window.zones) :
    ∃ id, window.zoneId zone = some id ∧ id.toNat = window.rank center zone + 1 ∧
      window.rank center zone < window.size := by
  have inside := (mem_zones_iff_spans small centered).1 mem
  have below := window.rank_lt inside
  have fits := UInt32.toNat_ofNat_of_lt' (Nat.lt_of_le_of_lt below small)
  exact ⟨_, (window.zoneId_eq center zone small centered).trans (if_pos inside), fits, below⟩

theorem zoneId_mapsTo :
    Set.MapsTo window.zoneId {zone | zone ∈ window.zones} window.numbers := by
  intro zone mem
  obtain ⟨id, number, rank, below⟩ := zoneId_of_mem small centered mem
  rw [number]
  exact ⟨id, ⟨by omega, by omega⟩, rfl⟩

theorem rank_injOn : Set.InjOn (window.rank center) {zone | zone ∈ window.zones} := by
  intro zone mem other mem' same
  exact rank_inj ((mem_zones_iff_spans small centered).1 mem)
    ((mem_zones_iff_spans small centered).1 mem') same

theorem zoneId_injOn : Set.InjOn window.zoneId {zone | zone ∈ window.zones} := by
  intro zone mem other mem' same
  obtain ⟨id, number, rank, -⟩ := zoneId_of_mem small centered mem
  obtain ⟨id', number', rank', -⟩ := zoneId_of_mem small centered mem'
  obtain rfl : id = id' := Option.some.inj (number.symm.trans (same.trans number'))
  exact rank_injOn small centered mem mem' (Nat.succ.inj (rank.symm.trans rank'))

/-- There are as many zones as places, and no place is taken twice. -/
theorem exists_rank (full : window.zones.length = window.size) {place : Nat}
    (inside : place < window.size) : ∃ zone ∈ window.zones, window.rank center zone = place := by
  have places : Set.MapsTo (window.rank center) window.zones.toFinset
      (Finset.range window.size) := by
    intro zone mem
    rw [Finset.mem_coe, List.mem_toFinset] at mem
    obtain ⟨-, -, -, below⟩ := zoneId_of_mem small centered mem
    exact Finset.mem_coe.2 (Finset.mem_range.2 below)
  have distinct : Set.InjOn (window.rank center) window.zones.toFinset := by
    rw [List.coe_toFinset]
    exact rank_injOn small centered
  have count : (Finset.range window.size).card ≤ window.zones.toFinset.card := by
    rw [Finset.card_range, List.toFinset_card_of_nodup window.zones_nodup, full]
  obtain ⟨zone, mem, rank⟩ := Finset.surjOn_of_injOn_of_card_le _ places distinct count
    (Finset.mem_coe.2 (Finset.mem_range.2 inside))
  exact ⟨zone, List.mem_toFinset.1 mem, rank⟩

theorem zoneId_surjOn (full : window.zones.length = window.size) :
    Set.SurjOn window.zoneId {zone | zone ∈ window.zones} window.numbers := by
  rintro _ ⟨id, ⟨positive, last⟩, rfl⟩
  have inside : id.toNat - 1 < window.size := by omega
  obtain ⟨zone, mem, place⟩ := exists_rank small centered full inside
  obtain ⟨id', number, rank, -⟩ := zoneId_of_mem small centered mem
  have same : id' = id := UInt32.toNat_inj.1 (by omega)
  exact ⟨zone, mem, number.trans (congrArg some same)⟩

/-- If the numbers of a whole window fit 32 bits, a zone is listed exactly if it has a number, which
it has exactly if it is at the center's level on the flat axes and no further away than the radius,
and these are the zones that steps from the center lead to, also over the ends of the coordinate
range. They are listed in order, no two of them have the same number, and in a window that is not
cut off they are as many as its size and every number from one up to it is given to one of them. -/
theorem zones_are_the_numbered :
    (∀ zone, (zone ∈ window.zones ↔ (window.zoneId zone).isSome) ∧
      (zone ∈ window.zones ↔
        (∀ axis, window.grid.isFlat axis → zone.coordinate axis = center.coordinate axis) ∧
          center.distance zone ≤ window.radius) ∧
      (zone ∈ window.zones ↔ ∃ dx dy dz, window.Step .x dx ∧ window.Step .y dy ∧
        window.Step .z dz ∧ center.offset dx dy dz = zone)) ∧
    window.zones.Pairwise (· < ·) ∧
    Set.InjOn window.zoneId {zone | zone ∈ window.zones} ∧
    Set.MapsTo window.zoneId {zone | zone ∈ window.zones} window.numbers ∧
    (window.Whole center → window.zones.length = window.size ∧
      Set.BijOn window.zoneId {zone | zone ∈ window.zones} window.numbers) := by
  have injective := zoneId_injOn small centered
  have numbered := zoneId_mapsTo small centered
  refine ⟨fun zone => ⟨(zoneId_isSome_iff small centered).symm, ?_, ?_⟩, window.zones_ascending,
    injective, numbered, fun whole => ?_⟩
  · rw [mem_zones_iff_spans small centered]
    exact spans_iff
  · rw [mem_zones_iff_spans small centered, ← sees_iff_spans small]
    exact sees_iff_offset
  · have full : window.zones.length = window.size := by
      have listed : window.zones = window.zonesAround center := by simp [zones, centered]
      rw [listed]
      exact length_whole small whole
    exact ⟨full, numbered, injective, zoneId_surjOn small centered full⟩

end Numbered

/-- A window of five by five zones, seen from above. -/
def square (center : Zone) : Window := ⟨⟨⟨.one, .one, .zero⟩⟩, 2, some center⟩

/-- In the middle of the range it is whole; at its end, every step over the end leads to a zone that
is listed once. -/
theorem zones_are_the_numbered_square :
    let inner := square ⟨-4, 1, 0⟩
    let outer := square ⟨-2147483648, 1, 0⟩
    inner.size < UInt32.size ∧ inner.Whole ⟨-4, 1, 0⟩ ∧ inner.zones.length = 25 ∧
      Set.BijOn inner.zoneId {zone | zone ∈ inner.zones} inner.numbers ∧
      outer.zones.length = 15 ∧ (⟨-2147483646, 3, 0⟩ : Zone) ∈ outer.zones ∧
      outer.zoneId ⟨-2147483646, 3, 0⟩ = some 25 ∧
      ∀ zone, outer.zoneId zone = some 25 → zone ∈ outer.zones ∧ zone = ⟨-2147483646, 3, 0⟩ := by
  have whole : (square ⟨-4, 1, 0⟩).Whole ⟨-4, 1, 0⟩ := by
    intro axis cut
    cases axis <;> decide
  have small : ∀ center, (square center).size < UInt32.size := by
    intro center
    change (square ⟨0, 0, 0⟩).size < UInt32.size
    decide +kernel
  have inner := zones_are_the_numbered (small ⟨-4, 1, 0⟩) rfl
  have outer := zones_are_the_numbered (small ⟨-2147483648, 1, 0⟩) rfl
  obtain ⟨full, bijective⟩ := inner.2.2.2.2 whole
  have mem : (⟨-2147483646, 3, 0⟩ : Zone) ∈ (square ⟨-2147483648, 1, 0⟩).zones := by decide +kernel
  have last : (square ⟨-2147483648, 1, 0⟩).zoneId ⟨-2147483646, 3, 0⟩ = some 25 := by
    decide +kernel
  have count : (square ⟨-2147483648, 1, 0⟩).zones.length = 15 := by decide +kernel
  refine ⟨small _, whole, full.trans (by decide +kernel), bijective, count, mem, last, ?_⟩
  intro zone number
  have listed : zone ∈ (square ⟨-2147483648, 1, 0⟩).zones :=
    (outer.1 zone).1.2 (by rw [number]; rfl)
  exact ⟨listed, outer.2.2.1 listed mem (number.trans last.symm)⟩

end Window

end AreaReplication
