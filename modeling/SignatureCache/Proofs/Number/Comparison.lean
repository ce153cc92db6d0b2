import Mathlib.Algebra.Order.Field.Rat
import Mathlib.Data.Prod.Lex
import SignatureCache.Number.Scalar

/-!
# How scalars compare

Whatever is a number has its place in one order, and numbers that stand in one place are neither
less nor greater: that makes the comparison a strict weak order. A double that is no number is not
less than anything, and nothing is less than it. Doubles are ranked by their class, from one
infinity to the other, and finite ones of one sign by exponent and mantissa; both zeros have one
rank.
-/

namespace SignatureCache

namespace Scalar

/-- The scalar is a number, so it equals itself. -/
def IsNumber {K : Type} [Scalar K] (x : K) : Prop :=
  same x x = true

end Scalar

open Scalar

/-- Numbers are compared by a strict weak order, and nothing else is compared. -/
class WeaklyOrdered (K : Type) [Scalar K] : Prop where
  number_of_less {x y : K} : less x y = true → IsNumber x ∧ IsNumber y
  asymm {x y : K} : less x y = true → less y x = false
  less_or_less {x y z : K} : IsNumber y → less x z = true → less x y = true ∨ less y z = true
  atMost_iff {x y : K} : atMost x y = true ↔ IsNumber x ∧ IsNumber y ∧ less y x = false
  number_of_finite {x : K} : isFinite x = true → IsNumber x

instance : WeaklyOrdered ℚ where
  number_of_less _ := ⟨beq_self_eq_true _, beq_self_eq_true _⟩
  asymm := by
    intro x y h
    exact decide_eq_false (of_decide_eq_true h).asymm
  less_or_less := by
    intro x y z _ h
    simp only [less, decide_eq_true_eq] at h ⊢
    rcases lt_or_ge x y with hxy | hyx
    · exact .inl hxy
    · exact .inr (hyx.trans_lt h)
  atMost_iff := by
    intro x y
    simp [atMost, IsNumber, same, less]
  number_of_finite _ := beq_self_eq_true _

namespace Binary64

open Float.Model UnpackedFloat

/-- The place of an unpacked double among the numbers. -/
def rank : UnpackedFloat → ℤ ×ₗ ℤ ×ₗ ℤ
  | .infinity .negative => toLex (-2, toLex (0, 0))
  | .finite .negative m e _ => toLex (-1, toLex (-e, -m))
  | .zero _ => toLex (0, toLex (0, 0))
  | .finite .positive m e _ => toLex (1, toLex (e, m))
  | .infinity .positive => toLex (2, toLex (0, 0))
  | .notANumber => toLex (3, toLex (0, 0))

theorem compare_natCast (m n : Nat) : compare (m : ℤ) n = compare m n := by
  simp only [compare, compareOfLessAndEq, Int.ofNat_lt, Int.ofNat_inj]

theorem compare_neg_neg (m n : ℤ) : compare (-m) (-n) = (compare m n).swap := by
  rw [← Std.OrientedCmp.eq_swap]
  simp only [compare, compareOfLessAndEq, neg_lt_neg_iff, neg_inj, eq_comm (a := m)]

/-- Numbers compare as their places. -/
theorem compare_eq_rank {a b : UnpackedFloat} (ha : a ≠ .notANumber) (hb : b ≠ .notANumber) :
    a.compare b = some (compare (rank a) (rank b)) := by
  cases a with
  | notANumber => exact absurd rfl ha
  | infinity s =>
    cases b with
    | notANumber => exact absurd rfl hb
    | infinity s' => cases s <;> cases s' <;> rfl
    | zero s' => cases s <;> rfl
    | finite s' => cases s <;> cases s' <;> rfl
  | zero s =>
    cases b with
    | notANumber => exact absurd rfl hb
    | infinity s' => cases s' <;> rfl
    | zero s' => rfl
    | finite s' => cases s' <;> rfl
  | finite s m e hm =>
    cases b with
    | notANumber => exact absurd rfl hb
    | infinity s' => cases s <;> cases s' <;> rfl
    | zero s' => cases s <;> rfl
    | finite s' m' e' hm' =>
      cases s <;> cases s'
      · change some ((compare e e').then (compare m m')).swap =
          some ((compare (-e) (-e')).then (compare (-m : ℤ) (-m')))
        rw [compare_neg_neg, compare_neg_neg, compare_natCast, Ordering.swap_then]
      · rfl
      · rfl
      · change some ((compare e e').then (compare m m')) =
          some ((compare e e').then (compare (m : ℤ) m'))
        rw [compare_natCast]

theorem compare_notANumber_left (b : UnpackedFloat) :
    UnpackedFloat.compare .notANumber b = none := by
  cases b <;> rfl

theorem compare_notANumber_right (a : UnpackedFloat) :
    a.compare .notANumber = none := by
  cases a <;> rfl

variable {x y : Float}

/-- The double is a number. -/
theorem isNumber_iff : IsNumber x ↔ x.toModel.unpack ≠ .notANumber := by
  change (x.toModel.unpack.compare x.toModel.unpack == some .eq) = true ↔ _
  rw [beq_iff_eq]
  by_cases h : x.toModel.unpack = .notANumber
  · simp [h, compare_notANumber_left]
  · simp [h, compare_eq_rank h h]

theorem less_iff : less x y = true ↔
    IsNumber x ∧ IsNumber y ∧ rank x.toModel.unpack < rank y.toModel.unpack := by
  have hdef : less x y = true ↔ x.toModel.unpack.compare y.toModel.unpack = some .lt := by
    change decide (decide ((_ == some Ordering.lt) = true) = true) = true ↔ _
    rw [decide_eq_true_eq, decide_eq_true_eq, beq_iff_eq]
  rw [isNumber_iff, isNumber_iff, hdef]
  by_cases hx : x.toModel.unpack = .notANumber
  · simp [hx, compare_notANumber_left]
  · by_cases hy : y.toModel.unpack = .notANumber
    · simp [hy, compare_notANumber_right]
    · simp [hx, hy, compare_eq_rank hx hy, compare_lt_iff_lt]

theorem atMost_iff : atMost x y = true ↔
    IsNumber x ∧ IsNumber y ∧ rank x.toModel.unpack ≤ rank y.toModel.unpack := by
  have hdef : atMost x y = true ↔
      (x.toModel.unpack.compare y.toModel.unpack).any (·.isLE) = true := by
    change decide (decide (_ = true) = true) = true ↔ _
    rw [decide_eq_true_eq, decide_eq_true_eq]
    rfl
  rw [isNumber_iff, isNumber_iff, hdef]
  by_cases hx : x.toModel.unpack = .notANumber
  · simp [hx, compare_notANumber_left]
  · by_cases hy : y.toModel.unpack = .notANumber
    · simp [hy, compare_notANumber_right]
    · simp [hx, hy, compare_eq_rank hx hy, ← compare_le_iff_le, Ordering.isLE_iff_ne_gt]

end Binary64

open Binary64 in
instance : WeaklyOrdered Float where
  number_of_less h := ⟨(less_iff.1 h).1, (less_iff.1 h).2.1⟩
  asymm := by
    intro x y h
    rw [← Bool.not_eq_true, less_iff]
    exact fun h' => (less_iff.1 h).2.2.asymm h'.2.2
  less_or_less := by
    intro x y z hy h
    obtain ⟨hx, hz, hlt⟩ := less_iff.1 h
    rw [less_iff, less_iff]
    rcases lt_or_ge (rank x.toModel.unpack) (rank y.toModel.unpack) with hxy | hyx
    · exact .inl ⟨hx, hy, hxy⟩
    · exact .inr ⟨hy, hz, hyx.trans_lt hlt⟩
  atMost_iff := by
    intro x y
    rw [Binary64.atMost_iff, ← Bool.not_eq_true, less_iff]
    constructor
    · rintro ⟨hx, hy, hle⟩
      exact ⟨hx, hy, fun h => hle.not_gt h.2.2⟩
    · rintro ⟨hx, hy, hnot⟩
      exact ⟨hx, hy, not_lt.1 fun hlt => hnot ⟨hy, hx, hlt⟩⟩
  number_of_finite := by
    intro x h
    rw [isNumber_iff]
    intro hx
    change x.toModel.unpack.isFinite = true at h
    rw [hx] at h
    cases h

end SignatureCache
