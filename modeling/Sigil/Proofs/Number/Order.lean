import Mathlib.Algebra.Order.Field.Power
import Mathlib.Algebra.Order.Ring.Rat
import Mathlib.Data.Rat.Cast.Order
import Mathlib.Order.Compare
import Mathlib.Order.WithBot
import Sigil.Number

/-!
# Numbers are compared exactly

A number stands for a point of the rational line, or for one of its two ends
(`Place.point`). However far apart the exponents of two floats are, and whether
or not an integer is one that a float can hold, numbers are in the order of
their points (`compare?_of_points`).
-/

namespace Sigil

namespace Number

/-! ## Points -/

/-- The point that a place stands for, with one below and one above all others. -/
def Place.point : Place → WithBot (WithTop ℚ)
  | .belowAll => ⊥
  | .at m e => ((m * 2 ^ e : ℚ) : WithTop ℚ)
  | .aboveAll => (⊤ : WithTop ℚ)

/-- The number that a significand makes with a smaller exponent, the difference made up for. -/
theorem scale_eq {m e g : Int} (h : g ≤ e) :
    ((m * 2 ^ (e - g).toNat : Int) : ℚ) * 2 ^ g = m * 2 ^ e := by
  have exponent : e = (e - g).toNat + g := by omega
  conv_rhs => rw [exponent, zpow_add₀ two_ne_zero, zpow_natCast]
  push_cast
  rw [mul_assoc]

/-- Integers are in the order of the numbers that they make with a common exponent. -/
theorem compare_scaled (a b g : Int) :
    Ord.compare a b = cmp ((a : ℚ) * 2 ^ g) (b * 2 ^ g) := by
  rw [cmp_mul_pos_right (zpow_pos two_pos g), ← cmp_eq_compare]
  exact (Int.cast_strictMono.cmp_map_eq a b).symm

/-- Places are in the order of their points. -/
theorem Place.compare_eq : ∀ p q : Place, p.compare q = cmp p.point q.point
  | .at m e, .at n f => by
    rw [Place.compare, compare_scaled _ _ (min e f), scale_eq (min_le_left e f),
      scale_eq (min_le_right e f), point, point, WithBot.coe_strictMono.cmp_map_eq,
      WithTop.coe_strictMono.cmp_map_eq]
  | .at m e, .aboveAll => by
    symm
    apply (cmp_eq_lt_iff _ _).mpr
    exact WithBot.coe_lt_coe.mpr (WithTop.coe_lt_top _)
  | .aboveAll, .at n f => by
    symm
    apply (cmp_eq_gt_iff _ _).mpr
    exact WithBot.coe_lt_coe.mpr (WithTop.coe_lt_top _)
  | .belowAll, .belowAll | .belowAll, .at .. | .belowAll, .aboveAll => rfl
  | .aboveAll, .belowAll | .aboveAll, .aboveAll | .at .., .belowAll => rfl

/-! ## Numbers -/

/-- Whether a number is a float that is no number. -/
def isNaN (n : Number) : Bool :=
  n.place.isNone

/-- The point that a number stands for. -/
def Stands (n : Number) (x : WithBot (WithTop ℚ)) : Prop :=
  ∃ p, n.place = some p ∧ p.point = x

variable {a b : Number} {x y : WithBot (WithTop ℚ)}

theorem exists_stands (h : a.isNaN = false) : ∃ x, a.Stands x := by
  obtain ⟨p, hp⟩ := Option.isSome_iff_exists.mp (Option.isNone_eq_false_iff.mp h)
  exact ⟨p.point, p, hp, rfl⟩

/-- Numbers are in the order of their points. -/
theorem compare?_of_points (ha : a.Stands x) (hb : b.Stands y) : a.compare? b = some (cmp x y) := by
  obtain ⟨p, hp, rfl⟩ := ha
  obtain ⟨q, hq, rfl⟩ := hb
  rw [compare?, hp, hq, ← Place.compare_eq]
  rfl

theorem equal_iff (ha : a.Stands x) (hb : b.Stands y) : a.equal b ↔ x = y := by
  rw [equal, compare?_of_points ha hb, beq_iff_eq, Option.some.injEq, cmp_eq_eq_iff]

end Number

end Sigil
