import Mathlib.Algebra.Order.Ring.Int
import Mathlib.Tactic.NormNum
import Mathlib.Tactic.Positivity
import Mathlib.Tactic.Ring
import SignatureCache.DyadicInterval.Ancestry
import SignatureCache.DyadicInterval.Order
import SignatureCache.Number.Word

/-!
# Words as integers

Shifts and masks of words of 64 bits, read as the integers that the words stand for. A shift to the
right halves and rounds down, by as many places as asked for although a word is only ever shifted
by 63 of them, and the low bits of a word are its remainder by a power of two. Both hold for
negative integers as they do for others.
-/

namespace SignatureCache

namespace Word

open DyadicInterval

theorem toInt_ofInt32 {n : Int} (h : fits32 n = true) : (BitVec.ofInt 32 n).toInt = n := by
  obtain ⟨hge, hlt⟩ := fits32_iff.1 h
  rw [BitVec.toInt_ofInt, Int.bmod_eq_of_le] <;> omega

theorem toInt_ofInt64 {n : Int} (h : fits64 n = true) : (BitVec.ofInt 64 n).toInt = n := by
  obtain ⟨hge, hlt⟩ := fits64_iff.1 h
  rw [BitVec.toInt_ofInt, Int.bmod_eq_of_le] <;> omega

/-! ### Shifts -/

/-- A number of at most `m` bits is shifted to nothing but its sign by `m` places or more. -/
theorem shiftRight_eq_sign {k : Int} {m n : Nat} (hge : -2 ^ m ≤ k) (hlt : k < 2 ^ m)
    (hn : m ≤ n) : k >>> n = if k < 0 then -1 else 0 := by
  obtain ⟨d, rfl⟩ := Nat.exists_eq_add_of_le hn
  have hpos : (0 : Int) < 2 ^ d := by positivity
  have hpow : (2 : Int) ^ (m + d) = 2 ^ m * 2 ^ d := pow_add 2 m d
  have hle : (2 : Int) ^ m ≤ 2 ^ m * 2 ^ d :=
    le_mul_of_one_le_right (by positivity) hpos
  have hneg := shiftRight_neg_iff k (m + d)
  have hlow : ¬ k >>> (m + d) < -1 := by
    rw [floor_lt_iff, Int.shiftLeft_eq, hpow]
    omega
  have hhigh : k >>> (m + d) < 1 := by
    rw [floor_lt_iff, Int.shiftLeft_eq, hpow]
    omega
  split <;> omega

/-- A shift by more places than a word has can be cut down to one that leaves the sign. -/
theorem toInt_sshiftRight_min (x : BitVec 64) (n : Nat) :
    (x.sshiftRight (min n 63)).toInt = x.toInt >>> n := by
  rw [BitVec.toInt_sshiftRight]
  rcases le_total n 63 with hn | hn
  · rw [min_eq_left hn]
  · have hge : -2 ^ 63 ≤ x.toInt := BitVec.le_toInt x
    have hlt : x.toInt < 2 ^ 63 := BitVec.toInt_lt
    rw [min_eq_right hn, shiftRight_eq_sign hge hlt le_rfl, shiftRight_eq_sign hge hlt hn]

/-! ### Masks -/

/-- The `n` low bits of a word, by a mask of the ones below bit `n`. -/
def lowBits (x : BitVec 64) (n : Nat) : BitVec 64 :=
  x &&& (1#64 <<< n - 1#64)

/-- At `n = 63` the bit above the mask is the sign, and the mask is right as it wraps around. -/
theorem toNat_lowBits (x : BitVec 64) {n : Nat} (hn : n ≤ 63) :
    (lowBits x n).toNat = x.toNat % 2 ^ n := by
  have hpos : 0 < 2 ^ n := Nat.two_pow_pos n
  have hlt : 2 ^ n < 2 ^ 64 := Nat.pow_lt_pow_right (by omega) (by omega)
  have hmask : (1#64 <<< n - 1#64).toNat = 2 ^ n - 1 := by
    rw [BitVec.toNat_sub, BitVec.toNat_shiftLeft, BitVec.toNat_ofNat,
      Nat.one_mod_two_pow (by omega), Nat.one_shiftLeft, Nat.mod_eq_of_lt hlt]
    omega
  rw [lowBits, BitVec.toNat_and, hmask, Nat.and_two_pow_sub_one_eq_mod]

/-- The low bits of a word are zero just if the integer is a multiple of their power of two. -/
theorem lowBits_eq_zero_iff (x : BitVec 64) {n : Nat} (hn : n ≤ 63) :
    lowBits x n = 0#64 ↔ (2 : Int) ^ n ∣ x.toInt := by
  have hdvd : (2 : Int) ^ n ∣ 2 ^ 64 := pow_dvd_pow 2 (by omega)
  have hnat : (2 : Int) ^ n ∣ x.toNat ↔ x.toNat % 2 ^ n = 0 := by
    rw [← Nat.dvd_iff_mod_eq_zero]
    exact_mod_cast Int.natCast_dvd_natCast (m := 2 ^ n) (n := x.toNat)
  rw [← BitVec.toNat_inj, toNat_lowBits x hn, BitVec.toInt_eq_toNat_cond]
  split
  · exact hnat.symm
  · rw [Nat.cast_pow, Nat.cast_ofNat, dvd_sub_left hdvd]
    exact hnat.symm

end Word

end SignatureCache
