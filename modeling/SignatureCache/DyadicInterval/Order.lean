import SignatureCache.DyadicInterval.Basic

/-!
# The key order

Keys are ordered by their left end and, among intervals with one left end, coarser first. So an
interval comes directly before the intervals nested in it, and those form one contiguous run.

Left ends are compared by moving the finer one to the level of the coarser one. Rounded down it
must not lie below the coarser offset, and rounded up not above it; it is equal when neither
happens. `compareStart_eq` says that this is the comparison of both ends counted in units of any
common finer level, from which the laws of an ordered map's key follow.
-/

namespace SignatureCache

namespace DyadicInterval

/-- Compares the left end of a coarser interval with that of a finer one, `gap` levels below. -/
def compareCoarser (coarse fine : Int) (gap : Nat) : Ordering :=
  if coarse < -((-fine) >>> gap) then .lt
  else if fine >>> gap < coarse then .gt
  else .eq

/-- Compares the left ends exactly. -/
def compareStart (I J : DyadicInterval) : Ordering :=
  if I.power ≤ J.power then compareCoarser I.offset J.offset (J.power - I.power).toNat
  else (compareCoarser J.offset I.offset (I.power - J.power).toNat).swap

/-- The key order: by left end, then coarser first. -/
protected def compare (I J : DyadicInterval) : Ordering :=
  (compareStart I J).then (compare I.power J.power)

instance : Ord DyadicInterval := ⟨DyadicInterval.compare⟩

/-- The left end counted in units of level `level`, for a level no coarser than the interval. -/
def startAt (level : Int) (I : DyadicInterval) : Int :=
  I.offset <<< (level - I.power).toNat

theorem lt_ceil_iff (a x : Int) (n : Nat) : a < -((-x) >>> n) ↔ a <<< n < x := by
  have hpos : (0 : Int) < 2 ^ n := Int.pow_pos (by decide)
  have h := Int.ediv_lt_iff_lt_mul (a := -x) (b := -a) hpos
  rw [Int.neg_mul] at h
  rw [Int.shiftRight_eq_div_pow, Int.natCast_pow, Int.cast_ofNat_Int, Int.shiftLeft_eq]
  exact ⟨fun h' => by have := h.1 (by omega); omega, fun h' => by have := h.2 (by omega); omega⟩

theorem floor_lt_iff (a x : Int) (n : Nat) : x >>> n < a ↔ x < a <<< n := by
  have hpos : (0 : Int) < 2 ^ n := Int.pow_pos (by decide)
  rw [Int.shiftRight_eq_div_pow, Int.natCast_pow, Int.cast_ofNat_Int, Int.shiftLeft_eq]
  exact Int.ediv_lt_iff_lt_mul hpos

theorem compareCoarser_eq (coarse fine : Int) (gap : Nat) :
    compareCoarser coarse fine gap = compare (coarse <<< gap) fine := by
  simp only [compareCoarser, lt_ceil_iff, floor_lt_iff, compare, compareOfLessAndEq]
  split
  · rfl
  · split
    · rw [if_neg (by omega)]
    · rw [if_pos (by omega)]

theorem startAt_add (I : DyadicInterval) {level : Int} (h : I.power ≤ level) (n : Nat) :
    startAt (level + n) I = startAt level I <<< n := by
  have : (level + n - I.power).toNat = (level - I.power).toNat + n := by omega
  rw [startAt, startAt, this, Int.shiftLeft_add]

theorem compare_shiftLeft (a b : Int) (n : Nat) : compare (a <<< n) (b <<< n) = compare a b := by
  have hpos : (0 : Int) < 2 ^ n := Int.pow_pos (by decide)
  have hlt : a * 2 ^ n < b * 2 ^ n ↔ a < b := Int.mul_lt_mul_right hpos
  have heq : a * 2 ^ n = b * 2 ^ n ↔ a = b := Int.mul_eq_mul_right_iff (by omega)
  simp only [compare, compareOfLessAndEq, Int.shiftLeft_eq, hlt, heq]

/-- The exact comparison of left ends is the comparison of their counts at any common level. -/
theorem compareStart_eq (I J : DyadicInterval) {level : Int} (hI : I.power ≤ level)
    (hJ : J.power ≤ level) : compareStart I J = compare (startAt level I) (startAt level J) := by
  have key : ∀ A B : DyadicInterval, A.power ≤ B.power → B.power ≤ level →
      compareCoarser A.offset B.offset (B.power - A.power).toNat =
        compare (startAt level A) (startAt level B) := by
    intro A B hAB hB
    obtain ⟨n, rfl⟩ : ∃ n : Nat, level = B.power + n := ⟨(level - B.power).toNat, by omega⟩
    rw [startAt_add A hAB, startAt_add B (Int.le_refl _),
      compare_shiftLeft, compareCoarser_eq]
    simp [startAt]
  unfold compareStart
  split
  · exact key I J ‹_› hJ
  · rw [key J I (by omega) hI, ← Std.OrientedCmp.eq_swap]

/-- The key order is lexicographic in the left end, counted at a common level, and the power. -/
theorem compare_eq (I J : DyadicInterval) {level : Int} (hI : I.power ≤ level)
    (hJ : J.power ≤ level) :
    compare I J =
      compareLex (compareOn (startAt level)) (compareOn power) I J := by
  change (compareStart I J).then (compare I.power J.power) = _
  rw [compareStart_eq I J hI hJ]
  rfl

instance : Std.TransOrd DyadicInterval where
  eq_swap {I J} := by
    have hI : I.power ≤ max I.power J.power := by omega
    have hJ : J.power ≤ max I.power J.power := by omega
    rw [compare_eq I J hI hJ, compare_eq J I hJ hI]
    exact Std.OrientedCmp.eq_swap
  isLE_trans {I J K} h₁ h₂ := by
    have hI : I.power ≤ max I.power (max J.power K.power) := by omega
    have hJ : J.power ≤ max I.power (max J.power K.power) := by omega
    have hK : K.power ≤ max I.power (max J.power K.power) := by omega
    rw [compare_eq I J hI hJ] at h₁
    rw [compare_eq J K hJ hK] at h₂
    rw [compare_eq I K hI hK]
    exact Std.TransCmp.isLE_trans h₁ h₂

instance : Std.LawfulEqOrd DyadicInterval where
  compare_self := Std.ReflCmp.compare_self
  eq_of_compare {I J} h := by
    change (compareStart I J).then (compare I.power J.power) = .eq at h
    rw [Ordering.then_eq_eq] at h
    have hp : I.power = J.power := Std.LawfulEqCmp.eq_of_compare h.2
    have hs := h.1
    rw [compareStart_eq I J (Int.le_refl _) (by omega)] at hs
    have hs := Std.LawfulEqCmp.eq_of_compare hs
    ext
    · simpa [startAt, hp] using hs
    · exact hp

end DyadicInterval

end SignatureCache
