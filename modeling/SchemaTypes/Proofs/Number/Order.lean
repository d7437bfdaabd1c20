import Mathlib.Algebra.Order.Field.Power
import Mathlib.Algebra.Order.Ring.Rat
import Mathlib.Order.WithBot
import SchemaTypes.Number.Double

/-!
# The order of numbers

Numbers are compared by mantissas over a common exponent. This is the order of the rational numbers
they stand for, with one place below and one above all of these. So it is transitive, and numbers at
the same place cannot be told apart by it.
-/

namespace SchemaTypes.Extended

/-- The rational number that a mantissa and an exponent stand for. -/
def rational (a e : Int) : ℚ := a * 2 ^ e

/-- The place of a number among the rational numbers and the two ends of their line. -/
def place : Extended → WithBot (WithTop ℚ)
  | below => ⊥
  | scaled a e => (rational a e : WithTop ℚ)
  | above => (⊤ : WithTop ℚ)

/-- A mantissa over a smaller exponent stands for the same number. -/
theorem scaled_over (a : Int) {e least : Int} (h : least ≤ e) :
    rational (a * Int.pow 2 (e - least).toNat) least = rational a e := by
  have hsplit : (2 : ℚ) ^ e = 2 ^ (e - least).toNat * 2 ^ least := by
    rw [← zpow_natCast, Int.toNat_of_nonneg (by omega), ← zpow_add₀ (by norm_num), sub_add_cancel]
  have hpow : ((Int.pow 2 (e - least).toNat : Int) : ℚ) = 2 ^ (e - least).toNat := by
    exact_mod_cast rfl
  rw [rational, rational, hsplit, Int.cast_mul, hpow, mul_assoc]

/-- Mantissas over a common exponent are in the order of the numbers. -/
theorem compareScaled_eq (a e b f : Int) :
    compareScaled a e b f = compare (rational a e) (rational b f) := by
  have hpos : (0 : ℚ) < 2 ^ min e f := zpow_pos (by norm_num) _
  rw [compareScaled, ← scaled_over a (min_le_left e f), ← scaled_over b (min_le_right e f)]
  generalize a * Int.pow 2 (e - min e f).toNat = m
  generalize b * Int.pow 2 (f - min e f).toNat = n
  have hcast {k l : Int} (h : k < l) : rational k (min e f) < rational l (min e f) :=
    mul_lt_mul_of_pos_right (Int.cast_lt.mpr h) hpos
  rcases lt_trichotomy m n with hlt | heq | hgt
  · exact (compare_lt_iff_lt.mpr hlt).trans (compare_lt_iff_lt.mpr (hcast hlt)).symm
  · rw [compare_eq_iff_eq.mpr heq, heq, compare_eq_iff_eq.mpr rfl]
  · exact (compare_gt_iff_gt.mpr hgt).trans (compare_gt_iff_gt.mpr (hcast hgt)).symm

/-- Numbers are equal if they have the same place. -/
theorem order_eq_eq_iff (x y : Extended) : x.order y = .eq ↔ x.place = y.place := by
  cases x <;> cases y <;> simp [order, place, compareScaled_eq]

/-- A number is above another one if its place is. -/
theorem order_eq_gt_iff (x y : Extended) : x.order y = .gt ↔ y.place < x.place := by
  cases x with
  | below => cases y <;> simp [order, place]
  | scaled a e => cases y <;> simp [order, place, compareScaled_eq, compare_gt_iff_gt]
  | above =>
    cases y with
    | below => simp [order, place]
    | scaled b f => exact iff_of_true rfl (WithBot.coe_lt_coe.mpr (WithTop.coe_lt_top _))
    | above => simp [order, place]

/-- Being above no other number is transitive. -/
theorem order_ne_gt_trans {x y z : Extended} (hxy : x.order y ≠ .gt) (hyz : y.order z ≠ .gt) :
    x.order z ≠ .gt := by
  rw [Ne, order_eq_gt_iff, not_lt] at hxy hyz ⊢
  exact hxy.trans hyz

/-- Two numbers that are equal to a third one are equal. -/
theorem order_eq_trans {x y z : Extended} (hxy : x.order y = .eq) (hyz : y.order z = .eq) :
    x.order z = .eq := by
  rw [order_eq_eq_iff] at hxy hyz ⊢
  exact hxy.trans hyz

/-- Natural numbers are in their own order. -/
theorem order_natCast_ne_gt_iff (m n : Nat) :
    (scaled m 0).order (scaled n 0) ≠ .gt ↔ m ≤ n := by
  rw [Ne, order_eq_gt_iff, not_lt, place, place, WithBot.coe_le_coe, WithTop.coe_le_coe]
  simp [rational]

end SchemaTypes.Extended
