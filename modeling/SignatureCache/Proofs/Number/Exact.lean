import Mathlib
import SignatureCache.Proofs.Number.Binary64
import SignatureCache.Proofs.Number.Rounding

/-!
# Doubles that are exact

A double reads a rational number if it is that number. Packing a result into a word only loses
numbers that are too large, and those become infinite. So an operation on doubles that read two
numbers reads the exact result if that is representable and not too large.
-/

namespace SignatureCache

namespace Binary64

open Float.Model UnpackedFloat

variable {m n : Nat} {e : Int} {u v : ℚ} {a b : UnpackedFloat} {s : Sign} {x y : Float}

/-! ### Words -/

theorem toNat_hiddenBit_append (f : BitVec 52) : (1#1 ++ f).toNat = 2 ^ 52 + f.toNat := by
  rw [BitVec.toNat_append, ← Nat.shiftLeft_add_eq_or_of_lt f.isLt]
  rfl

/-- A mantissa of 53 bits is stored without the highest, with a field that is neither the lowest nor
the highest. -/
theorem unpack_normal (s : Sign) {E : BitVec 11} (f : BitVec 52) (hlow : 0 < E.toNat)
    (hhigh : E.toNat < 2047) :
    UnpackedFloat.unpack Format.binary64 (packComponents Format.binary64 s E f) =
      .finite s (2 ^ 52 + f.toNat) (E.toNat - 1075) (by omega) := by
  have hfinite : E ≠ -1#11 := by
    rintro rfl
    exact absurd hhigh (by decide)
  have hnormal : E ≠ 0#11 := by
    rintro rfl
    exact absurd hlow (by decide)
  simp only [UnpackedFloat.unpack, unpackMantissa_packComponents, unpackExponent_packComponents,
    unpackSign_packComponents, Sign.ofBitVec_toBitVec, toNat_hiddenBit_append]
  rw [if_neg hfinite, if_neg hnormal]
  rfl

/-- A shorter mantissa is stored as it is, in the finest place. -/
theorem unpack_subnormal (s : Sign) {f : BitVec 52} (hf : 0 < f.toNat) :
    UnpackedFloat.unpack Format.binary64 (packComponents Format.binary64 s 0#11 f) =
      .finite s f.toNat leastExponent hf := by
  have hne : f ≠ 0#52 := by
    rintro rfl
    exact absurd hf (lt_irrefl 0)
  simp only [UnpackedFloat.unpack, unpackMantissa_packComponents, unpackExponent_packComponents,
    unpackSign_packComponents, Sign.ofBitVec_toBitVec]
  rw [if_neg (by decide), if_pos trivial, dif_neg hne]
  rfl

theorem unpack_pack_notANumber : (pack .notANumber).unpack = .notANumber :=
  unpack_packedNaN

theorem unpack_pack_infinity (s : Sign) : (pack (.infinity s)).unpack = .infinity s := by
  cases s <;> rfl

theorem unpack_pack_zero (s : Sign) : (pack (.zero s)).unpack = .zero s :=
  unpack_packedZero

theorem pack_finite (s : Sign) (hm : 0 < m) (e : Int) :
    UnpackedFloat.pack Format.binary64 (.finite s m e hm) =
      if 2 ^ 11 ≤ (e + 1023 + 52).toNat + 1 then packedInfinity Format.binary64 s
      else if m.log2 + 1 = 53 then
        packComponents Format.binary64 s (BitVec.ofNat 11 (e + 1023 + 52).toNat) (BitVec.ofNat 52 m)
      else packComponents Format.binary64 s 0#11 (BitVec.ofNat 52 m) :=
  rfl

/-- A number that is written as it is stored is packed without a loss, if it is not too large. -/
theorem unpack_pack_finite (s : Sign) (hm : 0 < m) (he : e = place m e) (hle : e ≤ 971) :
    (pack (.finite s m e hm)).unpack = .finite s m e hm := by
  change UnpackedFloat.unpack Format.binary64 (UnpackedFloat.pack Format.binary64 _) = _
  have hlow : leastExponent ≤ e := he ▸ le_max_right _ _
  have hbits := log2_eq_or_eq_leastExponent he
  rw [leastExponent] at hlow
  rw [pack_finite, if_neg (by omega)]
  split
  · next hlog =>
    have hge : 2 ^ 52 ≤ m := (Nat.le_log2 hm.ne').1 (by omega)
    have hlt : m < 2 ^ 53 := (Nat.log2_lt hm.ne').1 (by omega)
    generalize hE : BitVec.ofNat 11 (e + 1023 + 52).toNat = E
    generalize hf : BitVec.ofNat 52 m = f
    have hfield : (E.toNat : Int) = e + 1075 := by
      rw [← hE, BitVec.toNat_ofNat]
      omega
    have hfraction : 2 ^ 52 + f.toNat = m := by
      rw [← hf, BitVec.toNat_ofNat]
      omega
    rw [unpack_normal s f (by omega) (by omega)]
    simp only [hfraction, hfield, add_sub_cancel_right]
  · next hlog =>
    have hlog' : m.log2 < 52 := by
      rw [place] at he
      omega
    have hlt : m < 2 ^ 52 := (Nat.log2_lt hm.ne').1 hlog'
    have hfraction : (BitVec.ofNat 52 m).toNat = m := by
      rw [BitVec.toNat_ofNat, Nat.mod_eq_of_lt hlt]
    have hleast : e = leastExponent := hbits.resolve_left (by omega)
    rw [unpack_subnormal s (by omega)]
    simp only [hfraction, hleast]

/-- A number that is too large for a word becomes infinite. -/
theorem unpack_pack_large (s : Sign) (hm : 0 < m) (he : 971 < e) :
    (pack (.finite s m e hm)).unpack = .infinity s := by
  change UnpackedFloat.unpack Format.binary64 (UnpackedFloat.pack Format.binary64 _) = _
  rw [pack_finite, if_pos (by omega)]
  exact unpack_pack_infinity s

/-! ### What is read off the bits -/

/-- What an unpacked double stands for. -/
def ofUnpacked : UnpackedFloat → Binary64
  | .notANumber => .nan
  | .infinity s => .infinite (s == .negative)
  | .zero s => .finite (s == .negative) 0 leastExponent
  | .finite s m e _ => .finite (s == .negative) m e

theorem toNat_unpackExponent (b : BitVec 64) :
    (@unpackExponent Format.binary64 b).toNat = (b.toNat >>> 52) % 0x800 := by
  rw [unpackExponent, BitVec.toNat_cast, BitVec.extractLsb_toNat]
  rfl

theorem toNat_unpackMantissa (b : BitVec 64) :
    (@unpackMantissa Format.binary64 b).toNat = b.toNat % hiddenBit := by
  rw [unpackMantissa, BitVec.toNat_cast, BitVec.extractLsb_toNat]
  rfl

theorem ofBitVec_unpackSign (b : BitVec 64) :
    (Sign.ofBitVec (@unpackSign Format.binary64 b) == .negative) = b.toNat.testBit 63 := by
  have hbit : @unpackSign Format.binary64 b = 0#1 ↔ b.toNat >>> 63 % 2 = 0 := by
    rw [← BitVec.toNat_inj, unpackSign, BitVec.toNat_cast, BitVec.extractLsb_toNat]
    rfl
  rw [Nat.testBit_eq_decide_div_mod_eq, ← Nat.shiftRight_eq_div_pow, Sign.ofBitVec]
  split
  · next h =>
    rw [hbit.1 h]
    rfl
  · next h =>
    have hone : b.toNat >>> 63 % 2 = 1 := by
      have hne := mt hbit.2 h
      omega
    rw [hone]
    rfl

theorem ofFloat_eq (x : Float) : ofFloat x = ofUnpacked x.toModel.unpack := by
  obtain ⟨b, hb⟩ : ∃ b : BitVec 64, b = x.toBits.toBitVec := ⟨_, rfl⟩
  have hbits : x.toBits.toNat = b.toNat := by
    rw [hb]
    rfl
  have hE := toNat_unpackExponent b
  have hf := toNat_unpackMantissa b
  have hs := ofBitVec_unpackSign b
  have hfinite : @unpackExponent Format.binary64 b = -1#11 ↔
      (b.toNat >>> 52) % 0x800 = 0x7ff := by
    rw [← hE, ← BitVec.toNat_inj]
    rfl
  have hnormal : @unpackExponent Format.binary64 b = 0#11 ↔
      (b.toNat >>> 52) % 0x800 = 0 := by
    rw [← hE, ← BitVec.toNat_inj]
    rfl
  have hfraction : @unpackMantissa Format.binary64 b = 0#52 ↔
      b.toNat % hiddenBit = 0 := by
    rw [← hf, ← BitVec.toNat_inj]
    rfl
  change _ = ofUnpacked (UnpackedFloat.unpack Format.binary64 x.toBits.toBitVec)
  rw [ofFloat, hbits, ← hb]
  simp only [UnpackedFloat.unpack, ← hs, ← hfinite, ← hnormal, ← hfraction]
  split
  · split <;> rfl
  · split
    · next hzero =>
      split
      · next h =>
        rw [hfraction.1 h]
        rfl
      · rw [← hf]
        simp only [ofUnpacked, hzero]
        rfl
    · rw [ofUnpacked, toNat_hiddenBit_append, hf, ← hE]
      congr 1
      change (-1074 : Int) + _ - 1 = _ - 1075
      omega
/-! ### Floors -/

/-- The greatest integer below a multiple of a power of two is a shift. -/
theorem floor_mul_two_zpow (k e : Int) :
    ⌊(k : ℚ) * 2 ^ e⌋ = if 0 ≤ e then k <<< e.toNat else k >>> (-e).toNat := by
  split
  · next he =>
    obtain ⟨n, rfl⟩ := Int.eq_ofNat_of_zero_le he
    rw [Int.toNat_natCast, Int.shiftLeft_eq, zpow_natCast]
    exact_mod_cast Int.floor_intCast (R := ℚ) (k * 2 ^ n)
  · next he =>
    obtain ⟨n, rfl⟩ : ∃ n : Nat, e = -n := ⟨(-e).toNat, by omega⟩
    rw [neg_neg, Int.toNat_natCast, Int.shiftRight_eq_div_pow, zpow_neg, zpow_natCast,
      ← div_eq_mul_inv, ← Rat.floor_intCast_div_natCast]
    push_cast
    rfl

/-- The double is that number. -/
def Reads (x : Float) (v : ℚ) : Prop :=
  Denotes x.toModel.unpack v

/-- The greatest integer below a double is the floor of the number that it reads. -/
theorem floor?_of_reads (h : Reads x v) : floor? x = some ⌊v⌋ := by
  rw [floor?, ofFloat_eq]
  rcases denotes_cases h with ⟨s, hx, rfl⟩ | ⟨s, m, e, hm, hx, he, rfl⟩
  · rw [hx]
    cases s <;> rfl
  · rw [hx]
    cases s with
    | negative =>
      have hvalue : sign .negative * ((m : ℚ) * 2 ^ e) = (-m : Int) * 2 ^ e := by
        rw [sign]
        push_cast
        ring
      rw [hvalue, floor_mul_two_zpow]
      rfl
    | positive =>
      have hvalue : sign .positive * ((m : ℚ) * 2 ^ e) = (m : Int) * 2 ^ e := by
        rw [sign, one_mul]
        rfl
      rw [hvalue, floor_mul_two_zpow]
      rfl

/-- The double is infinite, or no number. -/
def NotFinite (x : Float) : Prop :=
  x.toModel.unpack = .notANumber ∨ ∃ s, x.toModel.unpack = .infinity s

theorem NotFinite.floor?_eq (h : NotFinite x) : floor? x = none := by
  rw [floor?, ofFloat_eq]
  rcases h with hx | ⟨s, hx⟩ <;> rw [hx] <;> rfl

/-! ### Operations -/

theorem abs_sign_mul (s : Sign) (hv : 0 ≤ v) : |sign s * v| = v := by
  cases s with
  | negative => rw [sign, neg_one_mul, abs_neg, abs_of_nonneg hv]
  | positive => rw [sign, one_mul, abs_of_nonneg hv]

/-- A result is packed without a loss, or it is too large and becomes infinite. -/
theorem reads_or_notFinite (h : Denotes a v) :
    Reads (.ofModel (pack a)) v ∨ NotFinite (.ofModel (pack a)) := by
  rcases denotes_cases h with ⟨s, rfl, rfl⟩ | ⟨s, m, e, hm, rfl, he, rfl⟩
  · left
    rw [Reads, unpack_pack_zero]
    rfl
  · rcases le_or_gt e 971 with hle | hlt
    · left
      rw [Reads, unpack_pack_finite s hm he hle]
      exact ⟨he, rfl⟩
    · exact .inr (.inr ⟨s, unpack_pack_large s hm hlt⟩)

theorem reads_of_lt (h : Denotes a v) (hv : |v| < 2 ^ 1024) : Reads (.ofModel (pack a)) v := by
  rcases denotes_cases h with ⟨s, rfl, rfl⟩ | ⟨s, m, e, hm, rfl, he, rfl⟩
  · rw [Reads, unpack_pack_zero]
    rfl
  · have hle : e ≤ 971 := by
      rw [abs_sign_mul s (by positivity)] at hv
      have hlow := (two_zpow_log2_le hm e).trans_lt hv
      rw [← zpow_natCast] at hlow
      have hbits := (zpow_lt_zpow_iff_right₀ one_lt_two).1 hlow
      rcases log2_eq_or_eq_leastExponent he with hlog | hleast
      · push_cast at hbits
        omega
      · rw [hleast, leastExponent]
        omega
    rw [Reads, unpack_pack_finite s hm he hle]
    exact ⟨he, rfl⟩

theorem Reads.add (hx : Reads x u) (hy : Reads y v) (h : Representable (u + v))
    (hlt : |u + v| < 2 ^ 1024) : Reads (x + y) (u + v) :=
  reads_of_lt (denotes_add hx hy h) hlt

theorem Reads.mul (hx : Reads x u) (hy : Reads y v) (h : Representable (u * v))
    (hlt : |u * v| < 2 ^ 1024) : Reads (x * y) (u * v) :=
  reads_of_lt (denotes_mul hx hy h) hlt

theorem Reads.neg (h : Reads x v) (hlt : |v| < 2 ^ 1024) : Reads x.neg (-v) :=
  reads_of_lt (denotes_neg h) ((abs_neg v).trans_lt hlt)

theorem Reads.div_or (hx : Reads x u) (hy : Reads y v) (hv : v ≠ 0) (h : Representable (u / v)) :
    Reads (x / y) (u / v) ∨ NotFinite (x / y) :=
  reads_or_notFinite (denotes_div hx hy hv h)

theorem Reads.div (hx : Reads x u) (hy : Reads y v) (hv : v ≠ 0) (h : Representable (u / v))
    (hlt : |u / v| < 2 ^ 1024) : Reads (x / y) (u / v) :=
  reads_of_lt (denotes_div hx hy hv h) hlt

/-- What is infinite or no number stays so in a product. -/
theorem NotFinite.mul (h : NotFinite x) (y : Float) : NotFinite (x * y) := by
  have hmul : (x * y).toModel.unpack =
      (pack (UnpackedFloat.mul Format.binary64 x.toModel.unpack y.toModel.unpack)).unpack := rfl
  rw [NotFinite, hmul]
  rcases h with hx | ⟨s, hx⟩
  · rw [hx]
    exact .inl unpack_pack_notANumber
  · rw [hx]
    cases y.toModel.unpack with
    | notANumber => exact .inl unpack_pack_notANumber
    | infinity s' => exact .inr ⟨_, unpack_pack_infinity _⟩
    | zero s' => exact .inl unpack_pack_notANumber
    | finite s' m e hm => exact .inr ⟨_, unpack_pack_infinity _⟩

/-! ### Integers and powers of two -/

theorem representable_intCast {k : Int} (hk : |k| < 2 ^ 53) : Representable k :=
  ⟨k, 0, by rw [zpow_zero, mul_one], hk, by decide⟩

theorem abs_intCast_lt {k : Int} (hk : |k| < 2 ^ 53) : |(k : ℚ)| < 2 ^ 1024 := by
  have hcast : |(k : ℚ)| < 2 ^ 53 := by exact_mod_cast hk
  exact hcast.trans (pow_lt_pow_right₀ one_lt_two (by omega))

theorem reads_one : Reads 1.0 1 := by
  have hone : (1.0 : Float).toModel.unpack = .finite .positive (2 ^ 52) (-52) (by decide) := by
    rfl
  rw [Reads, hone]
  refine ⟨by decide, ?_⟩
  norm_num [sign]

/-- A word is rounded to a double, and the power of ten that a literal is multiplied with is one. -/
theorem ofNat_eq (hn : n < 2 ^ 53) : Float.ofNat n = n.toUInt64.toFloat * 1.0 := by
  have hone : (1.0 : Float) = Float.ofBits 0x3ff0000000000000 := by
    rfl
  rw [hone]
  exact dif_pos ⟨hn, by decide⟩

theorem reads_ofNat (hn : n < 2 ^ 53) : Reads (Float.ofNat n) n := by
  have hk : |(n : Int)| < 2 ^ 53 := by
    rw [Nat.abs_cast]
    exact_mod_cast hn
  have hrep : Representable n := representable_intCast hk
  have hlt : |(n : ℚ)| < 2 ^ 1024 := abs_intCast_lt hk
  have hword : Reads n.toUInt64.toFloat n := by
    have hn' : n.toUInt64.toNat = n := Nat.mod_eq_of_lt (by omega)
    have hvalue : ((n : Int) : ℚ) * 2 ^ (0 : Int) = n := by
      rw [zpow_zero, mul_one, Int.cast_natCast]
    have hround := denotes_normalize (k := (n : Int)) (e := 0) (hvalue ▸ hrep) .positive
    have hto : n.toUInt64.toFloat = .ofModel
        (pack (UnpackedFloat.normalize Format.binary64 (n.toUInt64.toNat : Int) 0 .positive)) := rfl
    rw [hto, hn']
    exact reads_of_lt (hvalue ▸ hround) hlt
  rw [ofNat_eq hn, ← mul_one (n : ℚ)]
  rw [← mul_one (n : ℚ)] at hrep hlt
  exact hword.mul reads_one hrep hlt

theorem reads_ofInt {k : Int} (hk : |k| < 2 ^ 53) : Reads (Float.ofInt k) k := by
  obtain ⟨hlow, hhigh⟩ := abs_lt.1 hk
  cases k with
  | ofNat n =>
    rw [Int.ofNat_eq_natCast] at hhigh
    exact reads_ofNat (by omega)
  | negSucc n =>
    have hn : n + 1 < 2 ^ 53 := by omega
    have hlt : |((n + 1 : Nat) : ℚ)| < 2 ^ 1024 :=
      abs_intCast_lt (k := (n + 1 : Nat)) (by rw [Nat.abs_cast]; exact_mod_cast hn)
    rw [Int.cast_negSucc]
    exact (reads_ofNat hn).neg hlt

/-- The fields of a word that only holds an exponent. -/
theorem shiftLeft_eq_packComponents {N : Nat} (hN : N < 2 ^ 11) :
    (N.toUInt64 <<< 52).toBitVec =
      packComponents Format.binary64 .positive (BitVec.ofNat 11 N) 0#52 := by
  change BitVec.ofNat 64 N <<< 52 = (0#1 ++ BitVec.ofNat 11 N) ++ 0#52
  apply BitVec.eq_of_toNat_eq
  simp only [BitVec.toNat_append, BitVec.toNat_shiftLeft, BitVec.toNat_ofNat, Nat.zero_mod,
    Nat.shiftLeft_eq, Nat.zero_mul, Nat.zero_or, Nat.or_zero]
  omega

/-- The double `2^n` has no bit but the hidden one. -/
theorem unpack_twoPow {n : Int} (hlow : -1022 ≤ n) (hhigh : n < 1024) :
    (twoPow n).toModel.unpack = .finite .positive (2 ^ 52) (n - 52) (by decide) := by
  rw [twoPow, if_neg (by omega), if_pos hlow]
  change (pack (UnpackedFloat.unpack Format.binary64 _)).unpack = _
  rw [shiftLeft_eq_packComponents (by omega)]
  generalize hE : BitVec.ofNat 11 (n + 1023).toNat = E
  have hfield : (E.toNat : Int) = n + 1023 := by
    rw [← hE, BitVec.toNat_ofNat]
    omega
  have hplace : n - 52 = place (2 ^ 52) (n - 52) := by
    rw [place, leastExponent, Nat.log2_two_pow]
    omega
  have hexponent : (E.toNat : Int) - 1075 = n - 52 := by omega
  rw [unpack_normal .positive 0#52 (by omega) (by omega)]
  simp only [hexponent]
  exact unpack_pack_finite .positive (by decide) hplace (by omega)

theorem reads_twoPow {n : Int} (hlow : -1023 ≤ n) (hhigh : n < 1024) :
    Reads (twoPow n) (2 ^ n) := by
  rcases hlow.eq_or_lt with rfl | hlow
  · have hunpack : (twoPow (-1023)).toModel.unpack =
        .finite .positive (2 ^ 51) (-1074) (by decide) := by
      rfl
    rw [Reads, hunpack]
    refine ⟨by decide, ?_⟩
    rw [sign, one_mul, Nat.cast_pow, Nat.cast_ofNat, ← zpow_natCast, ← zpow_add₀ two_ne_zero]
    rfl
  · rw [Reads, unpack_twoPow (by omega) hhigh]
    refine ⟨?_, ?_⟩
    · rw [place, leastExponent, Nat.log2_two_pow]
      omega
    · rw [sign, one_mul, Nat.cast_pow, Nat.cast_ofNat, ← zpow_natCast, ← zpow_add₀ two_ne_zero]
      congr 1
      push_cast
      ring

/-- Powers of two that are too fine are zero, and nothing can be divided by them. -/
theorem notFinite_div_twoPow {n : Int} (hn : n < -1023) (x : Float) :
    NotFinite (x / twoPow n) := by
  have hzero : (twoPow n).toModel.unpack = .zero .positive := by
    rw [twoPow, if_neg (by omega), if_neg (by omega), if_neg (by omega)]
    rfl
  have hdiv : (x / twoPow n).toModel.unpack =
      (pack (UnpackedFloat.div Format.binary64 x.toModel.unpack (.zero .positive))).unpack := by
    rw [← hzero]
    rfl
  rw [NotFinite, hdiv]
  cases x.toModel.unpack with
  | notANumber => exact .inl unpack_pack_notANumber
  | infinity s => exact .inr ⟨_, unpack_pack_infinity _⟩
  | zero s => exact .inl unpack_pack_notANumber
  | finite s m e hm => exact .inr ⟨_, unpack_pack_infinity _⟩

end Binary64

end SignatureCache
