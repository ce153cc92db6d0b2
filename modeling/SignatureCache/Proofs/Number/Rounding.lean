import Mathlib
import SignatureCache.Number.Binary64

/-!
# Operations that do not round

A number with at most 53 bits, none of them finer than the finest doubles have, is representable. An
operation whose exact result is representable gives that result: all bits that are shifted out of
the mantissa on the way are zero. Here results are not yet packed into words, so exponents have no
upper bound.
-/

namespace SignatureCache

namespace Binary64

open Float.Model UnpackedFloat

variable {m n : Nat} {e : Int} {u v : ℚ} {a b : UnpackedFloat} {s : Sign}

/-- The number has at most 53 bits and none of them is finer than the finest doubles have. -/
def Representable (v : ℚ) : Prop :=
  ∃ c E : Int, v = c * 2 ^ E ∧ |c| < 2 ^ 53 ∧ leastExponent ≤ E

/-- The exponent that a number `m · 2^e` is stored with: all bits of a mantissa are in use, or the
exponent is the finest. -/
def place (m : Nat) (e : Int) : Int :=
  max (m.log2 + e - 52) leastExponent

theorem targetExponent_eq (m : Nat) (e : Int) :
    Format.binary64.targetExponent (totalExponent m e) = place m e := by
  change max ((m.log2 : Int) + 1 + e - 53) (-1074) = max ((m.log2 : Int) + e - 52) (-1074)
  omega

/-- The factor that a sign stands for. -/
def sign : Sign → ℚ
  | .negative => -1
  | .positive => 1

/-- The number that an unpacked double denotes, if it is written as it is stored. -/
def Denotes : UnpackedFloat → ℚ → Prop
  | .zero _, v => v = 0
  | .finite s m e _, v => e = place m e ∧ v = sign s * (m * 2 ^ e)
  | _, _ => False

/-! ### Representable numbers -/

theorem Representable.neg (h : Representable v) : Representable (-v) := by
  obtain ⟨c, E, rfl, hc, hE⟩ := h
  refine ⟨-c, E, ?_, (abs_neg c).trans_lt hc, hE⟩
  push_cast
  ring

theorem Representable.of_sign (h : Representable (sign s * v)) : Representable v := by
  cases s with
  | negative => simpa [sign] using h.neg
  | positive => simpa [sign] using h

/-- The highest bit of a mantissa bounds the number from below. -/
theorem two_zpow_log2_le (hm : 0 < m) (e : Int) : (2 : ℚ) ^ (m.log2 + e) ≤ m * 2 ^ e := by
  rw [zpow_add₀ two_ne_zero, zpow_natCast]
  refine mul_le_mul_of_nonneg_right ?_ (by positivity)
  exact_mod_cast Nat.log2_self_le hm.ne'

theorem lt_two_zpow_log2 (m : Nat) (e : Int) : (m : ℚ) * 2 ^ e < 2 ^ (m.log2 + 1 + e) := by
  have hbits : ((m.log2 : Int) + 1 + e) = (m.log2 + 1 : Nat) + e := by
    push_cast
    ring
  rw [hbits, zpow_add₀ two_ne_zero, zpow_natCast]
  refine mul_lt_mul_of_pos_right ?_ (by positivity)
  exact_mod_cast Nat.lt_log2_self

theorem mul_two_zpow_lt {c : Int} (hc : |c| < 2 ^ 53) (E : Int) :
    (c : ℚ) * 2 ^ E < 2 ^ (53 + E) := by
  rw [zpow_add₀ two_ne_zero]
  refine mul_lt_mul_of_pos_right ?_ (by positivity)
  exact_mod_cast (le_abs_self c).trans_lt hc

/-- A representable number is a multiple of the place that it is stored with. -/
theorem place_le_of_eq {c E : Int} (hm : 0 < m) (h : (m : ℚ) * 2 ^ e = c * 2 ^ E)
    (hc : |c| < 2 ^ 53) (hE : leastExponent ≤ E) : place m e ≤ E := by
  have hlow := two_zpow_log2_le hm e
  have hhigh := mul_two_zpow_lt hc E
  have hlt := (zpow_lt_zpow_iff_right₀ one_lt_two).1 (hlow.trans_lt (h ▸ hhigh))
  exact max_le (by omega) hE

theorem log2_mono (h : m ≤ n) : m.log2 ≤ n.log2 := by
  rw [Nat.log2_eq_log_two, Nat.log2_eq_log_two]
  exact Nat.log_mono_right h

theorem log2_mul_two_pow (hn : n ≠ 0) (t : Nat) : (n * 2 ^ t).log2 = n.log2 + t := by
  induction t with
  | zero => simp
  | succ t ih =>
    have hne : n * 2 ^ t ≠ 0 := by positivity
    rw [pow_succ, ← mul_assoc, mul_comm _ 2, Nat.log2_two_mul hne, ih]
    rfl

theorem place_mul_two_pow (hm : m ≠ 0) (e : Int) (t : Nat) :
    place (m * 2 ^ t) e = place m (e + t) := by
  rw [place, place, log2_mul_two_pow hm]
  congr 1
  push_cast
  ring

/-! ### Shifts -/

/-- Bits that are shifted out leave no trace if they are zero. -/
theorem shiftRight_exact (n t : Nat) :
    ExtendedMantissa.ofMantissaAndAccuracy (n * 2 ^ t) .exact >>> t =
      ExtendedMantissa.ofMantissaAndAccuracy n .exact := by
  change Nat.repeat ExtendedMantissa.shiftRightOne t _ = _
  induction t generalizing n with
  | zero => simp [Nat.repeat]
  | succ t ih =>
    have hstep := ih (n * 2)
    rw [pow_succ', ← mul_assoc, Nat.repeat, hstep]
    simp [ExtendedMantissa.shiftRightOne, ExtendedMantissa.ofMantissaAndAccuracy]

theorem shiftToTargetExponent_exact (hn : n ≠ 0) {t : Nat} (ht : place n (e + t) = e + t) :
    shiftToTargetExponent Format.binary64 (n * 2 ^ t) e .exact =
      (ExtendedMantissa.ofMantissaAndAccuracy n .exact, e + t) := by
  have hshift : (e + t - e).toNat = t := by omega
  rw [shiftToTargetExponent, targetExponent_eq, place_mul_two_pow hn, ht]
  simp only [shiftToExponent, hshift, shiftRight_exact]

theorem roundWithAccuracy_eq (hn : 0 < n) {t : Nat} (ht : place n (e + t) = e + t) (s : Sign) :
    roundWithAccuracy Format.binary64 s (n * 2 ^ t) e .exact = .finite s n (e + t) hn := by
  have hfirst := shiftToTargetExponent_exact hn.ne' ht
  have hsecond := shiftToTargetExponent_exact (e := e + t) (t := 0) hn.ne' (by simpa using ht)
  have hround : (ExtendedMantissa.ofMantissaAndAccuracy n .exact).roundedMantissa = n := rfl
  rw [pow_zero, mul_one, Nat.cast_zero, add_zero] at hsecond
  rw [roundWithAccuracy, hfirst]
  simp only [hround, hsecond]
  exact dif_neg hn.ne'

/-- A representable number is rounded to itself, from any exponent that is not too coarse. -/
theorem denotes_roundWithAccuracy (hm : 0 < m) (he : e ≤ place m e)
    (h : Representable (m * 2 ^ e)) (s : Sign) :
    Denotes (roundWithAccuracy Format.binary64 s m e .exact) (sign s * (m * 2 ^ e)) := by
  obtain ⟨c, E, heq, hc, hE⟩ := h
  have hplace := place_le_of_eq hm heq hc hE
  obtain ⟨t, ht⟩ : ∃ t : Nat, place m e = e + t := ⟨(place m e - e).toNat, by omega⟩
  obtain ⟨d, hd⟩ : ∃ d : Nat, E = e + t + d := ⟨(E - (e + t)).toNat, by omega⟩
  have hint : (m : Int) = c * 2 ^ d * 2 ^ t := by
    have hcancel : (m : ℚ) * 2 ^ e = c * 2 ^ d * 2 ^ t * 2 ^ e := by
      rw [heq, hd, zpow_add₀ two_ne_zero, zpow_add₀ two_ne_zero, zpow_natCast, zpow_natCast]
      ring
    exact_mod_cast mul_right_cancel₀ (by positivity) hcancel
  obtain ⟨n, rfl⟩ : 2 ^ t ∣ m := by
    have hdvd : (2 : Int) ^ t ∣ m := Dvd.intro_left _ hint.symm
    exact_mod_cast hdvd
  have hn : 0 < n := Nat.pos_of_mul_pos_left hm
  rw [mul_comm, place_mul_two_pow hn.ne'] at ht
  rw [mul_comm (2 ^ t) n, roundWithAccuracy_eq hn ht]
  refine ⟨ht.symm, ?_⟩
  rw [zpow_add₀ two_ne_zero, zpow_natCast]
  push_cast
  ring

theorem denotes_round (hm : 0 < m) (h : Representable (m * 2 ^ e)) (s : Sign) :
    Denotes (UnpackedFloat.round Format.binary64 s m e) (sign s * (m * 2 ^ e)) := by
  obtain ⟨t, ht⟩ : ∃ t, t = (e - place m e).toNat := ⟨_, rfl⟩
  have hround : UnpackedFloat.round Format.binary64 s m e =
      roundWithAccuracy Format.binary64 s (m * 2 ^ t) (e - t) .exact := by
    simp only [UnpackedFloat.round, decreaseExponent, targetExponent_eq, ← ht, Nat.shiftLeft_eq]
  have hvalue : ((m * 2 ^ t : Nat) : ℚ) * 2 ^ (e - t) = m * 2 ^ e := by
    rw [zpow_sub₀ two_ne_zero, zpow_natCast]
    push_cast
    field_simp
  have hplace : e - t ≤ place (m * 2 ^ t) (e - t) := by
    rw [place_mul_two_pow hm.ne', sub_add_cancel]
    omega
  rw [hround, ← hvalue]
  exact denotes_roundWithAccuracy (by positivity) hplace (hvalue ▸ h) s

/-- An integer multiple of a power of two is rounded to itself, whatever the exponent. -/
theorem denotes_normalize {k : Int} (h : Representable (k * 2 ^ e)) (zero : Sign) :
    Denotes (UnpackedFloat.normalize Format.binary64 k e zero) (k * 2 ^ e) := by
  unfold UnpackedFloat.normalize
  split
  · next hk =>
    have hneg : k < 0 := compare_lt_iff_lt.1 hk
    have hvalue : sign .negative * (((-k).toNat : ℚ) * 2 ^ e) = k * 2 ^ e := by
      have hcast : ((-k).toNat : ℚ) = -k := by exact_mod_cast Int.toNat_of_nonneg (by omega)
      rw [hcast, sign]
      ring
    rw [← hvalue] at h ⊢
    exact denotes_round (by omega) h.of_sign _
  · next hk =>
    obtain rfl : k = 0 := compare_eq_iff_eq.1 hk
    simp [Denotes]
  · next hk =>
    have hpos : 0 < k := compare_gt_iff_gt.1 hk
    have hvalue : sign .positive * ((k.toNat : ℚ) * 2 ^ e) = k * 2 ^ e := by
      have hcast : (k.toNat : ℚ) = k := by exact_mod_cast Int.toNat_of_nonneg hpos.le
      rw [hcast, sign, one_mul]
    rw [← hvalue] at h ⊢
    exact denotes_round (by omega) h.of_sign _

/-! ### Sums, products and quotients -/

/-- Only a number in the finest place has a mantissa with bits to spare. -/
theorem log2_eq_or_eq_leastExponent (h : e = place m e) : m.log2 = 52 ∨ e = leastExponent := by
  rw [place, leastExponent] at *
  omega

theorem sign_neg (s : Sign) : sign (-s) = -sign s := by
  cases s
  · exact (neg_neg 1).symm
  · rfl

theorem sign_mul (s s' : Sign) : sign (s * s') = sign s * sign s' := by
  cases s <;> cases s'
  · change (1 : ℚ) = -1 * -1
    rw [neg_one_mul, neg_neg]
  · exact (mul_one (-1 : ℚ)).symm
  · exact (one_mul (-1 : ℚ)).symm
  · exact (one_mul (1 : ℚ)).symm

theorem sign_div (s s' : Sign) : sign (s / s') = sign s / sign s' := by
  have hdiv : s / s' = s * s' := by
    cases s <;> cases s' <;> rfl
  have hinv : (sign s')⁻¹ = sign s' := by
    cases s'
    · exact inv_neg_one (R := ℚ)
    · exact inv_one
  rw [hdiv, sign_mul, div_eq_mul_inv, hinv]

theorem denotes_cases (h : Denotes a v) :
    (∃ s, a = .zero s ∧ v = 0) ∨
      ∃ s m e hm, a = .finite s m e hm ∧ e = place m e ∧ v = sign s * (m * 2 ^ e) := by
  cases a with
  | infinity s => cases h
  | notANumber => cases h
  | zero s => exact .inl ⟨s, rfl, h⟩
  | finite s m e hm => exact .inr ⟨s, m, e, hm, rfl, h⟩

theorem denotes_neg (h : Denotes a v) : Denotes a.neg (-v) := by
  rcases denotes_cases h with ⟨s, rfl, rfl⟩ | ⟨s, m, e, hm, rfl, he, rfl⟩
  · exact neg_zero
  · refine ⟨he, ?_⟩
    rw [sign_neg, neg_mul]

theorem denotes_mul (ha : Denotes a u) (hb : Denotes b v) (h : Representable (u * v)) :
    Denotes (mul Format.binary64 a b) (u * v) := by
  rcases denotes_cases ha with ⟨s, rfl, rfl⟩ | ⟨s, m, e, hm, rfl, he, rfl⟩ <;>
    rcases denotes_cases hb with ⟨s', rfl, rfl⟩ | ⟨s', m', e', hm', rfl, he', rfl⟩
  · exact zero_mul _
  · exact zero_mul _
  · exact mul_zero _
  · have hprod : sign s * (m * 2 ^ e) * (sign s' * (m' * 2 ^ e')) =
        sign (s * s') * ((m * m' : Nat) * 2 ^ (e + e')) := by
      rw [sign_mul, zpow_add₀ two_ne_zero]
      push_cast
      ring
    have hplace : e + e' ≤ place (m * m') (e + e') := by
      have hleft := log2_eq_or_eq_leastExponent he
      have hright := log2_eq_or_eq_leastExponent he'
      have hm₁ : m.log2 ≤ (m * m').log2 := log2_mono (Nat.le_mul_of_pos_right m hm')
      have hm₂ : m'.log2 ≤ (m * m').log2 := log2_mono (Nat.le_mul_of_pos_left m' hm)
      rw [place, leastExponent] at *
      omega
    rw [hprod] at h ⊢
    exact denotes_roundWithAccuracy (Nat.mul_pos hm hm') hplace h.of_sign _

/-- The same number at a finer exponent, as a signed integer. -/
theorem apply_decreaseExponent (s : Sign) (m : Nat) {e₀ : Int} (he : e₀ ≤ e) :
    (s.apply (decreaseExponent m e e₀).1 : ℚ) * 2 ^ e₀ = sign s * (m * 2 ^ e) := by
  obtain ⟨t, rfl⟩ : ∃ t : Nat, e = e₀ + t := ⟨(e - e₀).toNat, by omega⟩
  have hshift : (e₀ + t - e₀).toNat = t := by omega
  rw [zpow_add₀ two_ne_zero, zpow_natCast]
  simp only [decreaseExponent, hshift, Nat.shiftLeft_eq]
  cases s <;> simp only [Sign.apply, sign] <;> push_cast <;> ring

theorem denotes_add (ha : Denotes a u) (hb : Denotes b v) (h : Representable (u + v)) :
    Denotes (add Format.binary64 a b) (u + v) := by
  rcases denotes_cases ha with ⟨s, rfl, rfl⟩ | ⟨s, m, e, hm, rfl, he, rfl⟩ <;>
    rcases denotes_cases hb with ⟨s', rfl, rfl⟩ | ⟨s', m', e', hm', rfl, he', rfl⟩
  · change Denotes (if (s == s') = true then .zero s else .zero .positive) _
    split <;> exact add_zero 0
  · rw [zero_add]
    exact hb
  · rw [add_zero]
    exact ha
  · have hsum : sign s * (m * 2 ^ e) + sign s' * (m' * 2 ^ e') =
        (s.apply (decreaseExponent m e (min e e')).1 +
          s'.apply (decreaseExponent m' e' (min e e')).1 : Int) * 2 ^ min e e' := by
      rw [Int.cast_add, add_mul, apply_decreaseExponent s m (min_le_left e e'),
        apply_decreaseExponent s' m' (min_le_right e e')]
    rw [hsum] at h ⊢
    exact denotes_normalize h _

/-- The highest bits of both operands bound the exponent of a quotient with at most 53 bits. -/
theorem log2_add_lt_of_quotient {c E e' : Int} (hm : 0 < m)
    (h : (m : ℚ) * 2 ^ e = c * 2 ^ E * (n * 2 ^ e')) (hn : 0 < n) (hc : |c| < 2 ^ 53) :
    m.log2 + e < 53 + E + (n.log2 + 1 + e') := by
  refine (zpow_lt_zpow_iff_right₀ (one_lt_two (α := ℚ))).1 ?_
  calc (2 : ℚ) ^ (m.log2 + e) ≤ m * 2 ^ e := two_zpow_log2_le hm e
    _ = c * 2 ^ E * (n * 2 ^ e') := h
    _ < 2 ^ (53 + E) * (n * 2 ^ e') :=
      mul_lt_mul_of_pos_right (mul_two_zpow_lt hc E) (by positivity)
    _ < 2 ^ (53 + E) * 2 ^ (n.log2 + 1 + e') :=
      mul_lt_mul_of_pos_left (lt_two_zpow_log2 n e') (by positivity)
    _ = 2 ^ (53 + E + (n.log2 + 1 + e')) := (zpow_add₀ two_ne_zero _ _).symm

/-- A shift past the bits of the divisor gives the quotient as many bits of its own. -/
theorem le_log2_of_quotient {q t b : Nat} (hm : 0 < m) (h : m * 2 ^ t = n * q)
    (hbits : n.log2 + 1 + b ≤ m.log2 + t) : b ≤ q.log2 := by
  have hpos : 0 < m * 2 ^ t := by positivity
  have hq : 0 < q := Nat.pos_of_mul_pos_left (h ▸ hpos)
  refine (Nat.le_log2 hq.ne').2 ?_
  by_contra hshort
  have hlt : 2 ^ (m.log2 + t) < 2 ^ (n.log2 + 1 + b) := by
    calc 2 ^ (m.log2 + t) = 2 ^ m.log2 * 2 ^ t := pow_add 2 _ _
      _ ≤ m * 2 ^ t := Nat.mul_le_mul_right _ (Nat.log2_self_le hm.ne')
      _ = n * q := h
      _ < 2 ^ (n.log2 + 1) * 2 ^ b :=
        Nat.mul_lt_mul_of_lt_of_le Nat.lt_log2_self (not_le.1 hshort).le (by positivity)
      _ = 2 ^ (n.log2 + 1 + b) := (pow_add 2 _ _).symm
  have hexp := (Nat.pow_lt_pow_iff_right (by omega)).1 hlt
  omega

/-- A quotient is taken after a shift that makes room for all bits that it can have: one that is
representable leaves no remainder. -/
theorem exists_divCore_eq (hm : 0 < m) (hn : 0 < n) {e' : Int}
    (h : Representable (m * 2 ^ e / (n * 2 ^ e'))) :
    ∃ q T, divCore Format.binary64 m e n e' = (q, T, .exact) ∧ 0 < q ∧ T ≤ place q T ∧
      (q : ℚ) * 2 ^ T = m * 2 ^ e / (n * 2 ^ e') := by
  obtain ⟨c, E, heq, hc, hE⟩ := h
  obtain ⟨T, hT⟩ : ∃ T, T = min (e - e')
    (max ((m.log2 : Int) + 1 + e - (n.log2 + 1 + e') - 53) leastExponent) := ⟨_, rfl⟩
  have hcore : divCore Format.binary64 m e n e' =
      (m <<< (e - e' - T).toNat / n, T,
        accuracyOfFraction (m <<< (e - e' - T).toNat % n) n) := by
    rw [hT]
    rfl
  have hprod : (m : ℚ) * 2 ^ e = c * 2 ^ E * (n * 2 ^ e') := by
    rw [← heq]
    field_simp
  have hTE : T ≤ E := by
    have hbits := log2_add_lt_of_quotient hm hprod hn hc
    omega
  obtain ⟨t, ht⟩ : ∃ t : Nat, e = e' + T + t := ⟨(e - e' - T).toNat, by omega⟩
  obtain ⟨d, hd⟩ : ∃ d : Nat, E = T + d := ⟨(E - T).toNat, by omega⟩
  have hshift : (e - e' - T).toNat = t := by omega
  rw [hshift, Nat.shiftLeft_eq] at hcore
  have hpower : (2 : ℚ) ^ e = 2 ^ e' * 2 ^ T * 2 ^ t := by
    rw [ht, zpow_add₀ two_ne_zero, zpow_add₀ two_ne_zero, zpow_natCast]
  have hint : ((m * 2 ^ t : Nat) : Int) = c * 2 ^ d * n := by
    have hcancel : (m : ℚ) * 2 ^ t * (2 ^ e' * 2 ^ T) = c * 2 ^ d * n * (2 ^ e' * 2 ^ T) := by
      rw [hpower, hd, zpow_add₀ two_ne_zero, zpow_natCast] at hprod
      linarith
    exact_mod_cast mul_right_cancel₀ (by positivity) hcancel
  obtain ⟨q, hq⟩ : n ∣ m * 2 ^ t := by
    have hdvd : (n : Int) ∣ (m * 2 ^ t : Nat) := Dvd.intro_left _ hint.symm
    exact_mod_cast hdvd
  have hpos : 0 < m * 2 ^ t := by positivity
  have hqpos : 0 < q := Nat.pos_of_mul_pos_left (hq ▸ hpos)
  rw [hq, Nat.mul_div_cancel_left q hn, Nat.mul_mod_right] at hcore
  refine ⟨q, T, hcore, hqpos, ?_, ?_⟩
  · rw [place, le_max_iff]
    refine (le_or_gt T leastExponent).symm.imp (fun hcoarse => ?_) id
    have hbits : 52 ≤ q.log2 := le_log2_of_quotient hm hq (by omega)
    omega
  · have hcast : (m : ℚ) * 2 ^ t = n * q := by exact_mod_cast hq
    rw [eq_div_iff (by positivity), hpower]
    linear_combination (-(2 : ℚ) ^ e' * 2 ^ T) * hcast

theorem denotes_div (ha : Denotes a u) (hb : Denotes b v) (hv : v ≠ 0)
    (h : Representable (u / v)) : Denotes (div Format.binary64 a b) (u / v) := by
  rcases denotes_cases hb with ⟨s', rfl, rfl⟩ | ⟨s', m', e', hm', rfl, he', rfl⟩
  · exact absurd rfl hv
  rcases denotes_cases ha with ⟨s, rfl, rfl⟩ | ⟨s, m, e, hm, rfl, he, rfl⟩
  · exact zero_div _
  · have hquot : sign s * (m * 2 ^ e) / (sign s' * (m' * 2 ^ e')) =
        sign (s / s') * (m * 2 ^ e / (m' * 2 ^ e')) := by
      rw [sign_div, mul_div_mul_comm]
    rw [hquot] at h ⊢
    obtain ⟨q, T, hcore, hq, hT, hvalue⟩ := exists_divCore_eq hm hm' h.of_sign
    change Denotes (let (q, T, accuracy) := divCore Format.binary64 m e m' e'
      roundWithAccuracy Format.binary64 (s / s') q T accuracy) _
    rw [hcore, ← hvalue]
    exact denotes_roundWithAccuracy hq hT (hvalue ▸ h.of_sign) (s / s')

end Binary64

end SignatureCache
