import Mathlib.Algebra.Order.Ring.Int
import Mathlib.Tactic.NormNum
import Mathlib.Tactic.Positivity
import Mathlib.Tactic.Ring
import SignatureCache.Cache.Query
import SignatureCache.Proofs.DyadicInterval.Nesting
import SignatureCache.Proofs.DyadicInterval.Words
import SignatureCache.Proofs.Number.Words

/-!
# The range of cached intervals

A request is checked for its powers and for the offsets that refining its interval can reach. What
passes the checks is in a range of offsets and powers, and so is all that a query for it can add: a
half is only added above a requested interval or under it down to the resolution. In that range
offsets never leave their word. Powers do not either as long as they stay between the least word and
the limit of the policy; a root that grows towards a requested interval is at least as fine as the
coarsest interval on its side of zero that anything requested is contained in.
-/

namespace SignatureCache

open DyadicInterval

/-- The coarsest power for which requests are known to be served. -/
def lowestPower : Int :=
  -0x80000000 + 64

namespace DyadicInterval

/-- The interval keeps to the offsets of cached intervals, and to powers up to `limit`. -/
structure InRange (limit : Int) (I : DyadicInterval) : Prop where
  offset_ge : -Dissection.offsetLimit ≤ I.offset
  offset_lt : I.offset < Dissection.offsetLimit
  power_le : I.power ≤ limit

/-- The interval that contains everything in range on one side of zero, down to the lowest power. -/
def hemisphere (I : DyadicInterval) : DyadicInterval :=
  ⟨if I.offset < 0 then -1 else 0, lowestPower - 52⟩

variable {limit resolution : Int} {I J R root : DyadicInterval}

/-! ### Steps in range -/

theorem InRange.following?_eq (h : InRange limit I) (floor : Int) :
    I.following? floor = .ok (I.following floor) := by
  obtain ⟨hge, hlt, -⟩ := h
  rw [Dissection.offsetLimit] at hge hlt
  have hnext : Word.fits64 (I.offset + 1) = true := by
    rw [Word.fits64_iff]
    omega
  rw [following?, hnext]
  rfl

theorem InRange.left?_eq (h : InRange limit I) (hlimit : limit < 0x7fffffff)
    (hp : -0x80000000 ≤ I.power + 1) : I.left? = .ok I.left := by
  obtain ⟨hge, hlt, hle⟩ := h
  rw [Dissection.offsetLimit] at hge hlt
  have hdouble : Word.fits64 (2 * I.offset) = true := by
    rw [Word.fits64_iff]
    omega
  have hpower : Word.fits32 (I.power + 1) = true := by
    rw [Word.fits32_iff]
    omega
  rw [left?, hdouble, hpower]
  rfl

theorem power_ge_of_left?_eq (h : I.left? = .ok I.left) : -0x80000000 ≤ I.power + 1 := by
  unfold left? at h
  split at h
  · cases h
  · split at h
    · cases h
    · next hfits =>
      rw [Bool.not_eq_true', Bool.not_eq_false, Word.fits32_iff] at hfits
      exact hfits.1

/-- What lies under an interval that can be halved can be halved itself, below the limit. -/
theorem InRange.left?_eq_of_contains (h : InRange limit J) (hlimit : limit < 0x7fffffff)
    (hleft : I.left? = .ok I.left) (hc : I.contains J = true) : J.left? = .ok J.left := by
  have hI := power_ge_of_left?_eq hleft
  have hp := power_le_of_contains hc
  exact h.left?_eq hlimit (by omega)

/-- Below an interval whose power is a word, the step to the parent stays in its word. -/
theorem InRange.parent?_eq (h : InRange limit I) (hlimit : limit ≤ 0x7fffffff)
    (hc : R.contains I = true) (hne : I ≠ R) (hR : -0x80000000 ≤ R.power) :
    I.parent? = .ok I.parent := by
  have hle := h.power_le
  have hp := power_le_of_contains (contains_parent_of_ne hc hne)
  rw [parent_power] at hp
  have hpower : Word.fits32 (I.power - 1) = true := by
    rw [Word.fits32_iff]
    omega
  rw [parent?, hpower]
  rfl

/-! ### Offsets -/

/-- An offset in range comes to nothing but its sign when it is halved often enough. -/
theorem shiftRight_eq_of_range {k : Int} {n : Nat} (hge : -Dissection.offsetLimit ≤ k)
    (hlt : k < Dissection.offsetLimit) (hn : 52 ≤ n) : k >>> n = if k < 0 then -1 else 0 :=
  Word.shiftRight_eq_sign hge hlt hn

theorem le_of_mul_le {a bound factor : Int} (hbound : 0 ≤ bound) (hfactor : 1 ≤ factor)
    (h : a * factor ≤ bound) : a ≤ bound := by
  rcases le_total a 0 with ha | ha
  · exact ha.trans hbound
  · exact (le_mul_of_one_le_right ha hfactor).trans h

/-- Under an interval that passes the check, everything down to the resolution is in range. -/
theorem offset_of_offsetsFit (h : offsetsFit I resolution = true) (hc : I.contains J = true)
    (hp : J.power ≤ max resolution I.power) :
    -Dissection.offsetLimit ≤ J.offset ∧ J.offset < Dissection.offsetLimit := by
  obtain ⟨n, rfl⟩ := contains_iff_ancestor.1 hc
  obtain ⟨m, hm⟩ : ∃ m : Nat,
      max resolution (J.ancestor n).power - (J.ancestor n).power = n + m := by
    refine ⟨(max resolution (J.ancestor n).power - J.power).toNat, ?_⟩
    rw [ancestor_power] at *
    omega
  rw [offsetsFit, hm] at h
  split at h
  · cases h
  · have hlevels : ((n + m : Int)).toNat = n + m := by omega
    simp only [hlevels, Bool.and_eq_true, decide_eq_true_eq, Int.shiftLeft_eq, pow_add] at h
    have hoffset : (J.ancestor n).offset = J.offset >>> n := rfl
    rw [hoffset] at h
    have hlow : ¬ J.offset < (J.offset >>> n) * 2 ^ n := by
      rw [← Int.shiftLeft_eq, ← floor_lt_iff]
      omega
    have hhigh : J.offset < (J.offset >>> n + 1) * 2 ^ n := by
      rw [← Int.shiftLeft_eq, ← floor_lt_iff]
      omega
    have hfactor : (1 : Int) ≤ 2 ^ m := by
      have : (0 : Int) < 2 ^ m := by positivity
      omega
    have hbound : (0 : Int) ≤ Dissection.offsetLimit := by decide
    have hfirst : -(J.offset >>> n * 2 ^ n) ≤ Dissection.offsetLimit := by
      apply le_of_mul_le hbound hfactor
      rw [neg_mul, mul_assoc]
      omega
    have hlast : (J.offset >>> n + 1) * 2 ^ n ≤ Dissection.offsetLimit := by
      apply le_of_mul_le hbound hfactor
      rw [mul_assoc]
      omega
    omega

/-- An interval passes the check if everything under it at the resolution is in range. -/
theorem offsetsFit_of_offsets
    (h : ∀ J : DyadicInterval, I.contains J = true → J.power = max resolution I.power →
      -Dissection.offsetLimit ≤ J.offset ∧ J.offset < Dissection.offsetLimit) :
    offsetsFit I resolution = true := by
  obtain ⟨n, hn⟩ : ∃ n : Nat, max resolution I.power - I.power = n :=
    ⟨(max resolution I.power - I.power).toNat, by omega⟩
  have hpow : (0 : Int) < 2 ^ n := by positivity
  have hunder : ∀ k : Int, I.offset * 2 ^ n ≤ k → k < (I.offset + 1) * 2 ^ n →
      -Dissection.offsetLimit ≤ k ∧ k < Dissection.offsetLimit := by
    intro k hlow hhigh
    apply h ⟨k, max resolution I.power⟩ _ rfl
    rw [contains_iff]
    refine ⟨le_max_right _ _, ?_⟩
    have hlevels : (max resolution I.power - I.power).toNat = n := by omega
    simp only [hlevels]
    rw [← Int.shiftLeft_eq, ← not_lt, ← floor_lt_iff] at hlow
    rw [← Int.shiftLeft_eq, ← floor_lt_iff] at hhigh
    omega
  have hnext : (I.offset + 1) * 2 ^ n = I.offset * 2 ^ n + 2 ^ n := by ring
  have hfirst := hunder (I.offset * 2 ^ n) le_rfl (by omega)
  have hlast := hunder ((I.offset + 1) * 2 ^ n - 1) (by omega) (by omega)
  have hlevels : n ≤ 52 := by
    by_contra hdeep
    have hlarge : (2 : Int) ^ 53 ≤ 2 ^ n := pow_le_pow_right₀ (by norm_num) (by omega)
    rw [Dissection.offsetLimit] at hfirst hlast
    -- An interval that many levels up has one end too far from zero.
    rcases lt_or_ge I.offset 0 with hneg | hnonneg
    · have : I.offset * 2 ^ n ≤ (-1) * 2 ^ n := mul_le_mul_of_nonneg_right (by omega) hpow.le
      omega
    · have : 0 * 2 ^ n ≤ I.offset * 2 ^ n := mul_le_mul_of_nonneg_right hnonneg hpow.le
      omega
  rw [offsetsFit, hn]
  simp only [Int.toNat_natCast, Int.shiftLeft_eq]
  rw [if_neg (by omega), Bool.and_eq_true, decide_eq_true_eq, decide_eq_true_eq]
  exact ⟨hfirst.1, hlast.2⟩

/-! ### Around an interval in range -/

theorem InRange.of_contains (h : InRange limit J) (hc : I.contains J = true) :
    InRange limit I := by
  have hle := power_le_of_contains hc
  obtain ⟨n, rfl⟩ := contains_iff_ancestor.1 hc
  have hfactor : (1 : Int) ≤ 2 ^ n := by
    have : (0 : Int) < 2 ^ n := by positivity
    omega
  have hbound : (0 : Int) ≤ Dissection.offsetLimit := by decide
  have hmul := le_mul_of_one_le_right hbound hfactor
  have hge := h.offset_ge
  have hlt := h.offset_lt
  refine ⟨?_, ?_, hle.trans h.power_le⟩
  · change -Dissection.offsetLimit ≤ J.offset >>> n
    rw [← not_lt, floor_lt_iff, Int.shiftLeft_eq, neg_mul]
    omega
  · change J.offset >>> n < Dissection.offsetLimit
    rw [floor_lt_iff, Int.shiftLeft_eq]
    omega

theorem InRange.sibling (h : InRange limit I) : InRange limit I.sibling := by
  obtain ⟨hge, hlt, hle⟩ := h
  rw [Dissection.offsetLimit] at hge hlt
  have hoffset : -0x10000000000000 ≤ I.sibling.offset ∧ I.sibling.offset < 0x10000000000000 := by
    unfold DyadicInterval.sibling
    cases hh : I.half with
    | left =>
      rw [half_eq_left_iff] at hh
      simp only
      omega
    | right =>
      rw [half_eq_right_iff] at hh
      simp only
      omega
  exact ⟨hoffset.1, hoffset.2, by rwa [sibling_power]⟩

/-- The halves of an interval above one in range are in range. -/
theorem InRange.halves_above (h : InRange limit J) (hc : I.contains J = true) (hne : J ≠ I) :
    InRange limit I.left ∧ InRange limit I.right := by
  rcases left_contains_or_right_contains hc hne with hcl | hcr
  · have hl := h.of_contains hcl
    exact ⟨hl, by simpa using hl.sibling⟩
  · have hr := h.of_contains hcr
    exact ⟨by simpa using hr.sibling, hr⟩

/-! ### Hemispheres -/

theorem InRange.hemisphere_contains (h : InRange limit I) (hp : lowestPower ≤ I.power) :
    (hemisphere I).contains I = true := by
  rw [contains_iff]
  refine ⟨?_, ?_⟩
  · change lowestPower - 52 ≤ I.power
    omega
  · have hn : 52 ≤ (I.power - (lowestPower - 52)).toNat := by omega
    exact shiftRight_eq_of_range h.offset_ge h.offset_lt hn

theorem hemisphere_eq_of_sameSide (h : SameSide I J) : hemisphere I = hemisphere J := by
  unfold SameSide at h
  simp only [hemisphere, h]

/-! ### Requests that pass the checks -/

/-- The checks of a request, one after the other. -/
theorem allowInterval_eq (policy : Policy) (I : DyadicInterval) (resolution : Int) :
    policy.allowInterval I resolution =
      if policy.maxResolution < resolution then
        .error (.resolutionTooFine resolution policy.maxResolution)
      else if policy.maxResolution < I.power then
        .error (.resolutionTooFine I.power policy.maxResolution)
      else if offsetsFit I resolution = false then .error (.offsetOutOfRange I resolution)
      else .ok () := by
  unfold Policy.allowInterval Policy.allow
  by_cases hr : policy.maxResolution < resolution
  · rw [if_pos hr, if_pos hr]
    rfl
  · by_cases hp : policy.maxResolution < I.power
    · rw [if_neg hr, if_neg hr, if_pos hp, if_pos hp]
      rfl
    · rw [if_neg hr, if_neg hr, if_neg hp, if_neg hp]
      cases offsetsFit I resolution with
      | true => rfl
      | false => rfl

theorem allowInterval_eq_ok_iff {policy : Policy} :
    policy.allowInterval I resolution = .ok () ↔
      resolution ≤ policy.maxResolution ∧ I.power ≤ policy.maxResolution ∧
        offsetsFit I resolution = true := by
  rw [allowInterval_eq]
  split
  · next hr => simp [hr]
  · split
    · next hp => simp [hp]
    · split
      · next hf => simp [hf]
      · simp_all

theorem allow_cases (policy : Policy) (resolution : Int) :
    (resolution ≤ policy.maxResolution ∧ policy.allow resolution = .ok ()) ∨
      (policy.maxResolution < resolution ∧
        policy.allow resolution =
          .error (.resolutionTooFine resolution policy.maxResolution)) := by
  by_cases h : policy.maxResolution < resolution
  · exact .inr ⟨h, if_pos h⟩
  · exact .inl ⟨not_lt.1 h, if_neg h⟩

theorem exists_contains_of_power_le {p : Int} (h : I.power ≤ p) :
    ∃ J : DyadicInterval, I.contains J = true ∧ J.power = p := by
  obtain ⟨n, rfl⟩ : ∃ n : Nat, p = I.power + n := ⟨(p - I.power).toNat, by omega⟩
  clear h
  induction n with
  | zero => exact ⟨I, contains_self I, by omega⟩
  | succ n ih =>
    obtain ⟨J, hc, hp⟩ := ih
    refine ⟨J.left, contains_trans hc (contains_left J), ?_⟩
    rw [left_power, hp]
    omega

/-- An interval is accepted if everything under it at the resolution is in range. -/
theorem allowInterval_of_inRange {policy : Policy}
    (h : ∀ J : DyadicInterval, I.contains J = true → J.power = max resolution I.power →
      InRange policy.maxResolution J) :
    policy.allowInterval I resolution = .ok () := by
  obtain ⟨J, hc, hp⟩ := exists_contains_of_power_le (le_max_right resolution I.power)
  have hle := (h J hc hp).power_le
  rw [hp] at hle
  have hfits : offsetsFit I resolution = true :=
    offsetsFit_of_offsets fun J hc hp => ⟨(h J hc hp).offset_ge, (h J hc hp).offset_lt⟩
  exact allowInterval_eq_ok_iff.2
    ⟨(le_max_left _ _).trans hle, (le_max_right _ _).trans hle, hfits⟩

/-- What lies under an accepted interval down to its resolution is in range. -/
theorem inRange_of_allowInterval {policy : Policy}
    (h : policy.allowInterval I resolution = .ok ()) (hc : I.contains J = true)
    (hp : J.power ≤ max resolution I.power) :
    InRange policy.maxResolution J := by
  obtain ⟨hr, hlimit, hfits⟩ := allowInterval_eq_ok_iff.1 h
  obtain ⟨hge, hlt⟩ := offset_of_offsetsFit hfits hc hp
  exact ⟨hge, hlt, by omega⟩

theorem hemisphere_contains_of_allowInterval {policy : Policy}
    (h : policy.allowInterval I resolution = .ok ()) (hp : lowestPower ≤ I.power) :
    (hemisphere I).contains I = true :=
  (inRange_of_allowInterval h (contains_self I) (le_max_right _ _)).hemisphere_contains hp

end DyadicInterval

end SignatureCache
