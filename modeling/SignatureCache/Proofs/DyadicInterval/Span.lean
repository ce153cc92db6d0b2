import Mathlib.Algebra.Order.Field.Rat
import Mathlib.Algebra.Order.Field.Power
import Mathlib.Order.CompletePartialOrder
import Mathlib.Tactic.FieldSimp
import Mathlib.Tactic.Linarith
import Mathlib.Tactic.Positivity
import Mathlib.Tactic.Ring
import SignatureCache.DyadicInterval.Order
import SignatureCache.Proofs.DyadicInterval.Nesting

/-!
# Exact ends

The ends of an interval as exact rationals. Nesting is inclusion of the ranges between the ends, two
intervals are nested or do not meet, and the key order is lexicographic in the left end and the
power. With these three, facts about keys become inequalities between ends.
-/

namespace SignatureCache

namespace DyadicInterval

/-- The length of an interval. -/
def width (I : DyadicInterval) : ℚ :=
  2 ^ (-I.power)

/-- The left end. -/
def lower (I : DyadicInterval) : ℚ :=
  I.offset * I.width

/-- The right end. -/
def upper (I : DyadicInterval) : ℚ :=
  I.lower + I.width

theorem width_pos (I : DyadicInterval) : 0 < I.width := by
  unfold width
  positivity

theorem lower_lt_upper (I : DyadicInterval) : I.lower < I.upper := by
  have := I.width_pos
  unfold upper
  linarith

theorem width_le_width_iff {I J : DyadicInterval} : I.width ≤ J.width ↔ J.power ≤ I.power := by
  unfold width
  rw [zpow_le_zpow_iff_right₀ (by norm_num), neg_le_neg_iff]

theorem width_eq_of_power_eq {I J : DyadicInterval} (h : I.power = J.power) :
    I.width = J.width := by
  rw [width, width, h]

theorem width_parent (I : DyadicInterval) : I.parent.width = 2 * I.width := by
  unfold width
  rw [parent_power, show -(I.power - 1) = -I.power + 1 by ring, zpow_add_one₀ (by norm_num)]
  ring

theorem width_left (I : DyadicInterval) : 2 * I.left.width = I.width := by
  rw [← width_parent, parent_left]

theorem width_right (I : DyadicInterval) : 2 * I.right.width = I.width := by
  rw [← width_parent, parent_right]

/-- The intervals `n` levels above one are `2^n` times as wide. -/
theorem width_sub (k m power : Int) (n : Nat) :
    width ⟨m, power - n⟩ = 2 ^ n * width ⟨k, power⟩ := by
  simp only [width]
  rw [neg_sub, sub_eq_add_neg, zpow_add₀ two_ne_zero, zpow_natCast]

theorem lower_add (k : Int) (n : Nat) (power : Int) :
    lower ⟨k + n, power⟩ = lower ⟨k, power⟩ + n * width ⟨k, power⟩ := by
  simp only [lower, width]
  push_cast
  ring

/-! ### The halves cut an interval at its middle -/

@[simp] theorem lower_left (I : DyadicInterval) : I.left.lower = I.lower := by
  have h := width_left I
  simp only [lower, left_offset, Int.cast_mul, Int.cast_ofNat]
  rw [← h]
  ring

theorem upper_left (I : DyadicInterval) : I.left.upper = I.right.lower := by
  have h : I.right.width = I.left.width := width_eq_of_power_eq rfl
  simp only [upper, lower, left_offset, right_offset, h]
  push_cast
  ring

@[simp] theorem upper_right (I : DyadicInterval) : I.right.upper = I.upper := by
  have h := width_right I
  simp only [upper, lower, right_offset, ← h]
  push_cast
  ring

theorem range_parent (I : DyadicInterval) :
    I.parent.lower ≤ I.lower ∧ I.upper ≤ I.parent.upper := by
  have hw := width_parent I
  have hpos := I.width_pos
  rcases eq_left_or_eq_right I with h | h
  · have hl : I.lower = I.parent.lower := by
      rw [h, lower_left, parent_left]
    refine ⟨hl.ge, ?_⟩
    rw [upper, upper, hl, hw]
    linarith
  · have hu : I.upper = I.parent.upper := by
      rw [h, upper_right, parent_right]
    refine ⟨?_, hu.le⟩
    rw [upper, upper, hw] at hu
    linarith

/-- Only a left half starts where its parent does. -/
theorem half_of_lower_parent {I : DyadicInterval} (h : I.parent.lower = I.lower) :
    I.half = .left := by
  rcases eq_left_or_eq_right I with hI | hI
  · rw [hI, half_left]
  · have hmiddle := lower_lt_upper I.parent.left
    rw [upper_left, lower_left, ← hI] at hmiddle
    exact absurd h hmiddle.ne

/-! ### Nesting -/

theorem lower_le_iff_of_power_eq {I J : DyadicInterval} (h : I.power = J.power) :
    I.lower ≤ J.lower ↔ I.offset ≤ J.offset := by
  rw [lower, lower, width_eq_of_power_eq h, mul_le_mul_iff_left₀ J.width_pos, Int.cast_le]

/-- At one level, intervals that do not start together do not meet. -/
theorem upper_le_lower_of_lower_lt {I J : DyadicInterval} (h : I.power = J.power)
    (hlt : I.lower < J.lower) : I.upper ≤ J.lower := by
  have ho : I.offset + 1 ≤ J.offset := by
    by_contra hcon
    have := (lower_le_iff_of_power_eq h.symm).2 (show J.offset ≤ I.offset by omega)
    linarith
  have hc : (I.offset : ℚ) + 1 ≤ J.offset := by exact_mod_cast ho
  have hmul := mul_le_mul_of_nonneg_right hc J.width_pos.le
  rw [upper, lower, lower, width_eq_of_power_eq h]
  linarith

theorem eq_of_lower_eq_of_power_eq {I J : DyadicInterval} (hl : I.lower = J.lower)
    (hp : I.power = J.power) : I = J := by
  have h₁ := (lower_le_iff_of_power_eq hp).1 hl.le
  have h₂ := (lower_le_iff_of_power_eq hp.symm).1 hl.ge
  ext
  · omega
  · exact hp

theorem range_ancestor (I : DyadicInterval) (n : Nat) :
    (I.ancestor n).lower ≤ I.lower ∧ I.upper ≤ (I.ancestor n).upper := by
  induction n with
  | zero => simp
  | succ n ih =>
    rw [ancestor_succ]
    have h := range_parent (I.ancestor n)
    exact ⟨h.1.trans ih.1, ih.2.trans h.2⟩

/-- Of two intervals the coarser one contains the finer one, or they do not meet. -/
theorem contains_or_disjoint {I J : DyadicInterval} (hp : I.power ≤ J.power) :
    I.contains J = true ∨ I.upper ≤ J.lower ∨ J.upper ≤ I.lower := by
  have hA := contains_ancestor J (J.power - I.power).toNat
  have hr := range_ancestor J (J.power - I.power).toNat
  have hpA : (J.ancestor (J.power - I.power).toNat).power = I.power := by
    rw [ancestor_power]
    omega
  rcases lt_trichotomy I.lower (J.ancestor (J.power - I.power).toNat).lower with h | h | h
  · exact .inr (.inl ((upper_le_lower_of_lower_lt hpA.symm h).trans hr.1))
  · rw [eq_of_lower_eq_of_power_eq h hpA.symm]
    exact .inl hA
  · exact .inr (.inr (hr.2.trans (upper_le_lower_of_lower_lt hpA h)))

/-- An interval contains those whose range lies in its own, and no others. -/
theorem contains_iff_range {I J : DyadicInterval} :
    I.contains J = true ↔ I.lower ≤ J.lower ∧ J.upper ≤ I.upper := by
  constructor
  · intro h
    obtain ⟨n, rfl⟩ := contains_iff_ancestor.1 h
    exact range_ancestor J n
  · rintro ⟨hl, hu⟩
    have hw : J.width ≤ I.width := by
      unfold upper at hu
      linarith
    have hJ := J.lower_lt_upper
    rcases contains_or_disjoint (width_le_width_iff.1 hw) with h | h | h
    · exact h
    · linarith
    · linarith

/-! ### Intervals that do not meet -/

/-- No point lies in both intervals: one ends before the other starts. -/
def Apart (I J : DyadicInterval) : Prop :=
  I.upper ≤ J.lower ∨ J.upper ≤ I.lower

theorem Apart.symm {I J : DyadicInterval} (h : Apart I J) : Apart J I :=
  Or.symm h

instance : Std.Symm Apart where
  symm _ _ h := h.symm

theorem Apart.not_contains {I J : DyadicInterval} (h : Apart I J) : I.contains J = false := by
  rw [Bool.eq_false_iff]
  intro hc
  obtain ⟨hl, hu⟩ := contains_iff_range.1 hc
  have hI := I.lower_lt_upper
  have hJ := J.lower_lt_upper
  rcases h with h | h <;> linarith

theorem Apart.ne {I J : DyadicInterval} (h : Apart I J) : I ≠ J := by
  rintro rfl
  have hno := h.not_contains
  rw [contains_self] at hno
  cases hno

/-- What is apart from an interval contains nothing around or under it. -/
theorem Apart.not_contains_nested {I J K : DyadicInterval} (h : Apart I J)
    (hK : K.contains I = true ∨ I.contains K = true) : J.contains K = false := by
  have hno := h.not_contains
  have hno' := h.symm.not_contains
  rw [Bool.eq_false_iff] at hno hno' ⊢
  intro hc
  rcases hK with hK | hK
  · exact hno' (contains_trans hc hK)
  · exact (contains_or_contains hc hK).elim hno' hno

theorem nested_or_apart (I J : DyadicInterval) :
    I.contains J = true ∨ J.contains I = true ∨ Apart I J := by
  rcases le_total I.power J.power with hp | hp
  · rcases contains_or_disjoint hp with hc | hapart
    · exact .inl hc
    · exact .inr (.inr hapart)
  · rcases contains_or_disjoint hp with hc | hapart
    · exact .inr (.inl hc)
    · exact .inr (.inr (Or.symm hapart))

theorem apart_iff_not_nested {I J : DyadicInterval} :
    Apart I J ↔ I.contains J = false ∧ J.contains I = false := by
  constructor
  · exact fun h => ⟨h.not_contains, h.symm.not_contains⟩
  · rintro ⟨hno, hno'⟩
    rcases nested_or_apart I J with hc | hc | hapart
    · simp [hno] at hc
    · simp [hno'] at hc
    · exact hapart

/-! ### The points of an interval -/

/-- The points of an interval, as exact numbers. -/
def range (I : DyadicInterval) : Set ℚ :=
  Set.Ico I.lower I.upper

theorem lower_mem_range (I : DyadicInterval) : I.lower ∈ I.range :=
  ⟨le_rfl, I.lower_lt_upper⟩

theorem contains_iff_range_subset {I J : DyadicInterval} :
    I.contains J = true ↔ J.range ⊆ I.range := by
  rw [contains_iff_range, range, range, Set.Ico_subset_Ico_iff J.lower_lt_upper]

theorem Apart.disjoint_range {I J : DyadicInterval} (h : Apart I J) :
    Disjoint I.range J.range := by
  rw [Set.disjoint_left]
  rintro x ⟨hI, hI'⟩ ⟨hJ, hJ'⟩
  rcases h with h | h <;> linarith

theorem disjoint_range_iff {I J : DyadicInterval} : Disjoint I.range J.range ↔ Apart I J := by
  refine ⟨fun h => ?_, Apart.disjoint_range⟩
  rw [Set.disjoint_left] at h
  rcases nested_or_apart I J with hc | hc | hapart
  · exact absurd J.lower_mem_range (h (contains_iff_range_subset.1 hc J.lower_mem_range))
  · exact absurd (contains_iff_range_subset.1 hc I.lower_mem_range) (h I.lower_mem_range)
  · exact hapart

/-! ### The key order -/

/-- `I` comes before `J` in key order. -/
def Before (I J : DyadicInterval) : Prop :=
  compare I J = .lt

theorem startAt_eq (I : DyadicInterval) {level : Int} (h : I.power ≤ level) :
    (startAt level I : ℚ) = I.lower * 2 ^ level := by
  obtain ⟨n, rfl⟩ : ∃ n : Nat, level = I.power + n := ⟨(level - I.power).toNat, by omega⟩
  have hn : (I.power + n - I.power).toNat = n := by omega
  rw [startAt, hn, Int.shiftLeft_eq, lower, width, zpow_add₀ (by norm_num), zpow_neg]
  have : (2 : ℚ) ^ I.power ≠ 0 := by positivity
  push_cast
  rw [zpow_natCast]
  field_simp

/-- The key order is lexicographic in the exact left end and the power. -/
theorem before_iff {I J : DyadicInterval} :
    Before I J ↔ I.lower < J.lower ∨ I.lower = J.lower ∧ I.power < J.power := by
  have hI : I.power ≤ max I.power J.power := le_max_left _ _
  have hJ : J.power ≤ max I.power J.power := le_max_right _ _
  have hpos : (0 : ℚ) < 2 ^ max I.power J.power := by positivity
  have hlt : startAt (max I.power J.power) I < startAt (max I.power J.power) J ↔
      I.lower < J.lower := by
    rw [← Int.cast_lt (R := ℚ), startAt_eq I hI, startAt_eq J hJ, mul_lt_mul_iff_left₀ hpos]
  have heq : startAt (max I.power J.power) I = startAt (max I.power J.power) J ↔
      I.lower = J.lower := by
    rw [← Int.cast_inj (α := ℚ), startAt_eq I hI, startAt_eq J hJ, mul_left_inj' hpos.ne']
  rw [Before, compare_eq I J hI hJ, compareLex, Ordering.then_eq_lt, compareOn, compareOn,
    compare_lt_iff_lt, compare_eq_iff_eq, compare_lt_iff_lt, hlt, heq]

theorem Before.trans {I J K : DyadicInterval} (h : Before I J) (h' : Before J K) :
    Before I K := by
  rw [before_iff] at *
  rcases h with h | ⟨h, hp⟩ <;> rcases h' with h' | ⟨h', hp'⟩
  · exact .inl (h.trans h')
  · exact .inl (h' ▸ h)
  · exact .inl (h ▸ h')
  · exact .inr ⟨h.trans h', hp.trans hp'⟩

theorem Before.irrefl (I : DyadicInterval) : ¬ Before I I := by
  rw [before_iff]
  rintro (h | ⟨-, h⟩) <;> exact lt_irrefl _ h

theorem Before.asymm {I J : DyadicInterval} (h : Before I J) : ¬ Before J I :=
  fun h' => Before.irrefl I (h.trans h')

theorem before_trichotomy (I J : DyadicInterval) : Before I J ∨ I = J ∨ Before J I := by
  simp only [before_iff]
  rcases lt_trichotomy I.lower J.lower with h | h | h
  · exact .inl (.inl h)
  · rcases lt_trichotomy I.power J.power with hp | hp | hp
    · exact .inl (.inr ⟨h, hp⟩)
    · exact .inr (.inl (eq_of_lower_eq_of_power_eq h hp))
    · exact .inr (.inr (.inr ⟨h.symm, hp⟩))
  · exact .inr (.inr (.inl h))

/-- An interval comes before everything else nested in it. -/
theorem before_of_contains {I J : DyadicInterval} (h : I.contains J = true) (hne : J ≠ I) :
    Before I J := by
  have hl := (contains_iff_range.1 h).1
  rw [before_iff]
  rcases hl.lt_or_eq with hlt | heq
  · exact .inl hlt
  · have hp : ¬ J.power ≤ I.power := fun hp => hne (eq_of_contains_of_power_le h hp)
    exact .inr ⟨heq, by omega⟩

theorem not_before_of_contains {I J : DyadicInterval} (h : I.contains J = true) :
    ¬ Before J I := by
  by_cases hne : J = I
  · rw [hne]
    exact Before.irrefl I
  · exact (before_of_contains h hne).asymm

/-- A key that does not come before an interval is nested in it or starts where it ends or later. -/
theorem contains_or_upper_le {I J : DyadicInterval} (h : ¬ Before J I) :
    I.contains J = true ∨ I.upper ≤ J.lower := by
  rw [before_iff, not_or, not_and_or, not_lt, not_lt] at h
  have hJ := J.lower_lt_upper
  have hI := I.lower_lt_upper
  rcases le_total I.power J.power with hp | hp
  · rcases contains_or_disjoint hp with hc | hc | hc
    · exact .inl hc
    · exact .inr hc
    · linarith
  · rcases contains_or_disjoint hp with hc | hc | hc
    · have hl := (contains_iff_range.1 hc).1
      rcases h.2 with h2 | h2
      · exact absurd (le_antisymm hl h.1) h2
      · rw [eq_of_contains_of_power_le hc h2]
        exact .inl (contains_self J)
    · linarith
    · exact .inr hc

/-- What does not come before an interval, but before something nested in it, is nested in it. -/
theorem contains_of_before {I J K : DyadicInterval} (hK : I.contains K = true)
    (hfrom : ¬ Before J I) (hto : Before J K) : I.contains J = true := by
  have hupper := (contains_iff_range.1 hK).2
  have hlower := K.lower_lt_upper
  refine (contains_or_upper_le hfrom).resolve_right ?_
  intro hle
  rcases before_iff.1 hto with hlt | ⟨heq, -⟩ <;> linarith

/-- What starts past the end of an interval comes after everything nested in it. -/
theorem before_of_upper_le {I J K : DyadicInterval} (hc : I.contains J = true)
    (h : I.upper ≤ K.lower) : Before J K := by
  have hu := (contains_iff_range.1 hc).2
  have hJ := J.lower_lt_upper
  exact before_iff.2 (.inl (by linarith))

/-- What comes after everything nested in an interval starts past its end. -/
theorem upper_le_iff_after {I K : DyadicInterval} :
    I.upper ≤ K.lower ↔ ∀ J : DyadicInterval, I.contains J = true → Before J K := by
  constructor
  · exact fun h J hJ => before_of_upper_le hJ h
  · intro h
    have hI := h I (contains_self I)
    refine (contains_or_upper_le hI.asymm).resolve_left ?_
    exact fun hc => Before.irrefl K (h K hc)

/-- Past the end of an interval is after it and not under it. -/
theorem upper_le_iff_before_not_contains {I K : DyadicInterval} :
    I.upper ≤ K.lower ↔ Before I K ∧ I.contains K = false := by
  constructor
  · intro h
    exact ⟨before_of_upper_le (contains_self I) h, Apart.not_contains (.inl h)⟩
  · rintro ⟨hbefore, hno⟩
    refine (contains_or_upper_le hbefore.asymm).resolve_left ?_
    simp [hno]

end DyadicInterval

end SignatureCache
