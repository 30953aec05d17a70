import AreaReplication.Zone.Window
import Mathlib.Data.Nat.Digits.Defs
import Mathlib.Data.Set.Basic
import Mathlib.Order.Basic
import Mathlib.Order.Compare

/-!
# The zones of a window and their numbers

The list of zones around a center and the test whether a zone is in view agree, also where the
window is cut off at the ends of the coordinate range, and the list ascends, so no zone comes twice.
The number of a zone in the window has its distances from the window's edge as digits.
-/
namespace AreaReplication

theorem Axis.mem_all (axis : Axis) : axis ∈ all := by
  cases axis <;> decide

namespace Zone

/-- Zones compare by their first coordinate that differs. -/
theorem lt_iff {a b : Zone} : a < b ↔ a.x.toInt < b.x.toInt ∨ (a.x.toInt = b.x.toInt ∧
    (a.y.toInt < b.y.toInt ∨ (a.y.toInt = b.y.toInt ∧ a.z.toInt < b.z.toInt))) := by
  change a.order b = .lt ↔ _
  simp only [order, Ordering.then_eq_lt, compare_lt_iff_lt, compare_eq_iff_eq]

theorem lt_irrefl (zone : Zone) : ¬ zone < zone := by
  rw [lt_iff]
  omega

end Zone

namespace Window

variable (window : Window)

def Near (axis : Axis) (center value : Int32) : Prop :=
  if window.grid.isFlat axis then value = center
  else (value.toInt - center.toInt).natAbs ≤ window.reach

theorem sees_iff {center zone : Zone} : window.sees center zone ↔
    ∀ axis, window.Near axis (center.coordinate axis) (zone.coordinate axis) := by
  have one : ∀ axis, (if window.grid.isFlat axis then
      (zone.coordinate axis).toInt - (center.coordinate axis).toInt == 0
      else decide (((zone.coordinate axis).toInt - (center.coordinate axis).toInt).natAbs ≤
        window.reach)) = true ↔
      window.Near axis (center.coordinate axis) (zone.coordinate axis) := by
    intro axis
    unfold Near
    split_ifs
    · rw [beq_iff_eq, Int.sub_eq_zero, Int32.toInt_inj]
    · exact decide_eq_true_iff
  simp only [sees, List.all_eq_true, one]
  constructor
  · exact fun h axis => h axis axis.mem_all
  · exact fun h axis _ => h axis

/-- Every coordinate between the ends of the window is there, and no other. -/
theorem mem_span {axis : Axis} {center value : Int32} :
    value ∈ window.span axis center ↔ window.Near axis center value := by
  unfold span Near
  split_ifs
  · exact List.mem_singleton
  · have low := value.le_toInt
    have high := value.toInt_lt
    have left := center.le_toInt
    have right := center.toInt_lt
    simp only [List.mem_map, List.mem_range, Zone.minCoordinate, Zone.maxCoordinate]
    constructor
    · rintro ⟨step, hstep, rfl⟩
      rw [Int32.toInt_ofInt_of_le (by omega) (by omega)]
      omega
    · intro near
      refine ⟨(value.toInt - max (-2147483648) (center.toInt - window.reach)).toNat, by omega, ?_⟩
      rw [← Int32.toInt_inj, Int32.toInt_ofInt_of_le (by omega) (by omega)]
      omega

theorem span_ascending (axis : Axis) (center : Int32) :
    (window.span axis center).Pairwise fun a b => a.toInt < b.toInt := by
  unfold span
  split_ifs
  · exact List.pairwise_singleton _ _
  · have left := center.le_toInt
    have right := center.toInt_lt
    rw [List.pairwise_map]
    refine List.pairwise_lt_range.imp_of_mem fun {a b} ha hb less => ?_
    simp only [List.mem_range, Zone.minCoordinate, Zone.maxCoordinate] at ha hb ⊢
    rw [Int32.toInt_ofInt_of_le (by omega) (by omega),
      Int32.toInt_ofInt_of_le (by omega) (by omega)]
    omega

/-- The zones around a center are those that it sees. -/
theorem mem_zonesAround {center zone : Zone} :
    zone ∈ window.zonesAround center ↔ window.sees center zone := by
  rw [sees_iff]
  simp only [zonesAround, List.mem_flatMap, List.mem_map, mem_span]
  constructor
  · rintro ⟨x, hx, y, hy, z, hz, rfl⟩ axis
    cases axis with
    | x => exact hx
    | y => exact hy
    | z => exact hz
  · intro h
    exact ⟨zone.x, h .x, zone.y, h .y, zone.z, h .z, rfl⟩

theorem zonesAround_ascending (center : Zone) :
    (window.zonesAround center).Pairwise (· < ·) := by
  simp only [zonesAround, List.pairwise_flatMap, List.pairwise_map]
  refine ⟨fun x _ => ⟨fun y _ => ?_, ?_⟩, ?_⟩
  · refine (window.span_ascending .z center.z).imp fun less => ?_
    exact Zone.lt_iff.2 (.inr ⟨rfl, .inr ⟨rfl, less⟩⟩)
  · refine (window.span_ascending .y center.y).imp fun less => ?_
    intro a ha b hb
    obtain ⟨z, -, rfl⟩ := List.mem_map.1 ha
    obtain ⟨z', -, rfl⟩ := List.mem_map.1 hb
    exact Zone.lt_iff.2 (.inr ⟨rfl, .inl less⟩)
  · refine (window.span_ascending .x center.x).imp fun less => ?_
    intro a ha b hb
    obtain ⟨y, -, ha⟩ := List.mem_flatMap.1 ha
    obtain ⟨y', -, hb⟩ := List.mem_flatMap.1 hb
    obtain ⟨z, -, rfl⟩ := List.mem_map.1 ha
    obtain ⟨z', -, rfl⟩ := List.mem_map.1 hb
    exact Zone.lt_iff.2 (.inl less)

theorem zones_ascending : window.zones.Pairwise (· < ·) := by
  unfold zones
  cases window.center with
  | none => exact List.Pairwise.nil
  | some center => exact window.zonesAround_ascending center

theorem zones_nodup : window.zones.Nodup := by
  refine window.zones_ascending.imp fun {a b} less same => ?_
  rw [same] at less
  exact Zone.lt_irrefl b less

theorem mem_zones {zone : Zone} :
    zone ∈ window.zones ↔ ∃ center, window.center = some center ∧ window.sees center zone := by
  unfold zones
  cases window.center with
  | none => simp
  | some center => simp [mem_zonesAround]

section Numbers

variable (center zone : Zone)

/-- How far `zone` lies behind `center` on an axis. -/
def away (axis : Axis) : Int := (zone.coordinate axis).toInt - (center.coordinate axis).toInt

/-- On this axis, `zone` is in the window around `center`, were the window not cut off. -/
def Spans (axis : Axis) : Prop :=
  if window.grid.isFlat axis then away center zone axis = 0
  else (away center zone axis).natAbs ≤ window.radius

instance (axis : Axis) : Decidable (window.Spans center zone axis) :=
  inferInstanceAs (Decidable (if window.grid.isFlat axis then away center zone axis = 0
    else (away center zone axis).natAbs ≤ window.radius))

/-- The distance of `zone` from the lower edge of the window on an axis. -/
def digit (axis : Axis) : Nat := (away center zone axis + window.radius).toNat

/-- The place of `zone` in the whole window around `center`, counted from zero along the axes that
are cut into zones, `x` first. -/
def rank : Nat := Nat.ofDigits window.side (window.grid.activeAxes.map (window.digit center zone))

/-- The number of `zone` in the window around a center, from 1 on; zero if there is no center or
`zone` is outside. -/
def number : (center : Option Zone) → (zone : Zone) → Nat
  | none, _ => 0
  | some center, zone =>
    if ∀ axis ∈ Axis.all, window.Spans center zone axis then window.rank center zone + 1 else 0

theorem number_center (center : Zone) : window.number (some center) center =
    Nat.ofDigits window.side (window.grid.activeAxes.map fun _ => window.radius) + 1 := by
  have here : ∀ axis, away center center axis = 0 := fun axis => Int.sub_self _
  have inside : ∀ axis ∈ Axis.all, window.Spans center center axis := by
    intro axis _
    rw [Spans, here]
    split_ifs
    · rfl
    · exact Nat.zero_le _
  have digit : window.digit center center = fun _ => window.radius := by
    funext axis
    rw [Window.digit, here, Int.zero_add, Int.toNat_natCast]
  rw [number, if_pos inside, rank, digit]

theorem place_eq (axes : List Axis) : window.place center zone axes =
    if ∀ axis ∈ axes, window.Spans center zone axis then
      some (Nat.ofDigits window.side
        ((axes.filter fun axis => !window.grid.isFlat axis).map (window.digit center zone)))
    else none := by
  induction axes with
  | nil => rfl
  | cons axis rest ih =>
    have behind : away center zone axis =
      (zone.coordinate axis).toInt - (center.coordinate axis).toInt := rfl
    simp only [List.forall_mem_cons, List.filter_cons]
    unfold place
    rw [ih, ← behind]
    by_cases flat : window.grid.isFlat axis
    · have spans : window.Spans center zone axis ↔ away center zone axis = 0 := by
        rw [Spans, if_pos flat]
      simp only [flat, spans, if_true, Bool.not_true, Bool.false_eq_true, if_false]
      by_cases here : away center zone axis = 0
      · simp only [here, if_true, true_and]
      · simp only [here, if_false, false_and]
    · have spans : window.Spans center zone axis ↔
          (away center zone axis).natAbs ≤ window.radius := by
        rw [Spans, if_neg flat]
      have active : window.grid.isFlat axis = false := by simpa using flat
      simp only [active, spans, Bool.false_eq_true, if_false, Bool.not_false, if_true,
        List.map_cons, Nat.ofDigits_cons]
      by_cases near : (away center zone axis).natAbs ≤ window.radius
      · simp only [near, if_true, true_and]
        split_ifs
        · rfl
        · rfl
      · simp only [near, if_false, false_and]

/-- A number with fewer digits than the window has axes stays below its size. -/
theorem ofDigits_lt {digits : List Nat} (h : ∀ digit ∈ digits, digit < window.side) :
    Nat.ofDigits window.side digits < Nat.pow window.side digits.length := by
  induction digits with
  | nil => exact Nat.one_pos
  | cons digit rest ih =>
    obtain ⟨first, others⟩ := List.forall_mem_cons.1 h
    have higher := ih others
    rw [Nat.ofDigits_cons, List.length_cons]
    calc digit + window.side * Nat.ofDigits window.side rest
        < window.side + window.side * Nat.ofDigits window.side rest := Nat.add_lt_add_right first _
      _ = (Nat.ofDigits window.side rest + 1) * window.side := by
        rw [Nat.succ_mul, Nat.mul_comm, Nat.add_comm]
      _ ≤ Nat.pow window.side rest.length * window.side := Nat.mul_le_mul_right _ higher

section Inside

variable {center zone} (inside : ∀ axis ∈ Axis.all, window.Spans center zone axis)

include inside

theorem digits_lt : ∀ digit ∈ window.grid.activeAxes.map (window.digit center zone),
    digit < window.side := by
  intro digit hd
  obtain ⟨axis, ha, rfl⟩ := List.mem_map.1 hd
  obtain ⟨listed, active⟩ := List.mem_filter.1 ha
  have near := inside axis listed
  have cut : ¬ window.grid.isFlat axis := by simpa using active
  rw [Spans, if_neg cut] at near
  unfold Window.digit side
  omega

theorem rank_lt : window.rank center zone < window.size := by
  have few := window.ofDigits_lt (window.digits_lt inside)
  rwa [List.length_map] at few

end Inside

/-- If the numbers of a whole window fit 32 bits, the zones in view are numbered by their places. -/
theorem zoneId_eq (small : window.size < UInt32.size) (centered : window.center = some center) :
    window.zoneId zone = if ∀ axis ∈ Axis.all, window.Spans center zone axis then
      some (UInt32.ofNat (window.rank center zone + 1)) else none := by
  unfold zoneId
  simp only [centered, place_eq]
  by_cases inside : ∀ axis ∈ Axis.all, window.Spans center zone axis
  · have place : Nat.ofDigits window.side ((Axis.all.filter fun axis =>
        !window.grid.isFlat axis).map (window.digit center zone)) = window.rank center zone := rfl
    have fits : window.rank center zone + 1 < UInt32.size :=
      Nat.lt_of_le_of_lt (window.rank_lt inside) small
    simp only [if_pos inside, place, if_pos fits]
  · simp only [if_neg inside]

theorem zoneId_number (small : window.size < UInt32.size) :
    ((window.zoneId zone).getD 0).toNat = window.number window.center zone := by
  cases centered : window.center with
  | none =>
    rw [zoneId, centered]
    rfl
  | some center =>
    rw [window.zoneId_eq center zone small centered, number]
    by_cases inside : ∀ axis ∈ Axis.all, window.Spans center zone axis
    · have fits : window.rank center zone + 1 < UInt32.size :=
        Nat.lt_of_le_of_lt (window.rank_lt inside) small
      rw [if_pos inside, if_pos inside, Option.getD_some]
      exact UInt32.toNat_ofNat_of_lt' fits
    · rw [if_neg inside, if_neg inside]
      rfl

end Numbers

end Window

end AreaReplication
