import SignatureCache.DyadicInterval.Word
import SignatureCache.Proofs.DyadicInterval.KeyOrder

/-!
# Where key tests overflow

Nesting and the key order once more in words, now with every step checked: a difference that leaves
its word is refused, and so is a shift by as many places as the word has, or more. Floors are always
computed, as their shifts are cut down to 63 places. The test for divisibility has one number of
places at which it fails. The bit above a mask of 63 bits is the sign, the least word of all, and
one less than it is no word. So nesting never overflows, and the key order overflows just where that
mask is asked for: between an interval and its ancestor 63 levels up.
-/

namespace SignatureCache

/-! ### Checked words -/

namespace Word

variable {w : Nat}

/-- The difference of two signed words, refused where it leaves the word. -/
def sub? (x y : BitVec w) : Except Fault (BitVec w) :=
  if x.ssubOverflow y then .error .overflow else .ok (x - y)

/-- A shift to the left, refused unless it is by fewer places than the word has. Bits that leave the
word are lost. -/
def shiftLeft? (x : BitVec w) (n : Nat) : Except Fault (BitVec w) :=
  if n < w then .ok (x <<< n) else .error .overflow

/-- A shift to the right that keeps the sign, refused unless it is by fewer places than the word
has. -/
def sshiftRight? (x : BitVec w) (n : Nat) : Except Fault (BitVec w) :=
  if n < w then .ok (x.sshiftRight n) else .error .overflow

/-- A difference is refused exactly where its integer does not fit the word. -/
theorem sub?_eq (fits : Int → Bool)
    (h : ∀ n, fits n = true ↔ -2 ^ (w - 1) ≤ n ∧ n < 2 ^ (w - 1)) (x y : BitVec w) :
    sub? x y = if fits (x.toInt - y.toInt) then .ok (x - y) else .error .overflow := by
  have hfits : x.ssubOverflow y = !fits (x.toInt - y.toInt) := by
    rw [Bool.eq_not_iff, Ne, Bool.eq_iff_iff, h, BitVec.ssubOverflow, Bool.or_eq_true,
      decide_eq_true_eq, decide_eq_true_eq]
    omega
  rw [sub?, hfits]
  cases fits (x.toInt - y.toInt) <;> rfl

end Word

namespace DyadicInterval

variable {I J : DyadicInterval}

/-! ### Checked tests -/

/-- The number of levels from `I` down to `J`. -/
def gapInWords? (I J : DyadicInterval) : Except Fault Nat :=
  BitVec.toNat <$> Word.sub? (BitVec.ofInt 32 J.power) (BitVec.ofInt 32 I.power)

/-- A word halved `n` times and rounded down, by a shift of at most 63 places. -/
def floorInWords? (x : BitVec 64) (n : Nat) : Except Fault (BitVec 64) :=
  Word.sshiftRight? x (min n 63)

/-- The mask of the `n` low bits of a word: one less than the bit above them. -/
def maskInWords? (n : Nat) : Except Fault (BitVec 64) := do
  let bit ← Word.shiftLeft? 1#64 n
  Word.sub? bit 1#64

/-- Whether `2^n` divides a word, by a mask where the word has that many bits. -/
def dividedInWords? (x : BitVec 64) (n : Nat) : Except Fault Bool :=
  if n = 0 then .ok true
  else if n ≤ 63 then do
    let mask ← maskInWords? n
    return x &&& mask == 0#64
  else .ok (x == 0#64)

/-- Whether `J` is nested in `I`. -/
def containsInWords? (I J : DyadicInterval) : Except Fault Bool := do
  if J.power < I.power then return false
  let gap ← gapInWords? I J
  let floor ← floorInWords? J.offsetWord gap
  return floor == I.offsetWord

/-- Compares the left end of a coarser interval with that of a finer one, `gap` levels below. -/
def compareCoarserInWords? (coarse fine : BitVec 64) (gap : Nat) : Except Fault Ordering := do
  let floor ← floorInWords? fine gap
  match compare coarse.toInt floor.toInt with
  | .eq => return if ← dividedInWords? fine gap then .eq else .lt
  | ordering => return ordering

/-- Compares in key order. -/
def compareInWords? (I J : DyadicInterval) : Except Fault Ordering := do
  let start ←
    if J.power < I.power then do
      let gap ← gapInWords? J I
      Ordering.swap <$> compareCoarserInWords? J.offsetWord I.offsetWord gap
    else do
      let gap ← gapInWords? I J
      compareCoarserInWords? I.offsetWord J.offsetWord gap
  return start.then (compare I.power J.power)

/-! ### Each step -/

/-- The levels between two powers are counted unless their difference leaves its word. -/
theorem InWords.gapInWords?_eq (hI : I.InWords) (hJ : J.InWords) (hp : I.power ≤ J.power) :
    gapInWords? I J = gap? I.power J.power := by
  have hsub := Word.sub?_eq (w := 32) Word.fits32 fun n => Word.fits32_iff.trans (by omega)
  rw [gapInWords?, gap?, hsub, Word.toInt_ofInt32 hI.power, Word.toInt_ofInt32 hJ.power]
  split
  · rw [← hI.gapWord_eq hJ hp]
    rfl
  · rfl

theorem gap?_eq {coarse fine : Int} (h : Word.fits32 (fine - coarse) = true) :
    gap? coarse fine = .ok (fine - coarse).toNat := by
  rw [gap?, if_pos h]

/-- The shift of a floor is never by too many places. -/
theorem floorInWords?_eq (x : BitVec 64) (n : Nat) :
    floorInWords? x n = .ok (x.sshiftRight (min n 63)) := by
  rw [floorInWords?, Word.sshiftRight?, if_pos (by omega)]

/-- The bit above a mask has a predecessor unless it is the sign. -/
theorem fits64_bit_sub_one_iff {n : Nat} (hn : n ≤ 63) :
    Word.fits64 ((1#64 <<< n).toInt - 1) = true ↔ n ≠ 63 := by
  rcases hn.lt_or_eq with h | rfl
  · have hpos : 0 < 2 ^ n := Nat.two_pow_pos n
    have hlt : 2 ^ n < 2 ^ 63 := Nat.pow_lt_pow_right (by omega) h
    have hbit : (1#64 <<< n).toInt = (2 ^ n : Nat) := by
      rw [BitVec.toInt_shiftLeft, BitVec.toNat_ofNat, Nat.one_mod_two_pow (by omega),
        Nat.one_shiftLeft, Int.bmod_eq_of_le] <;> omega
    rw [hbit, Word.fits64_iff]
    omega
  · decide

theorem maskInWords?_eq {n : Nat} (hn : n ≤ 63) :
    maskInWords? n = if n = 63 then .error .overflow else .ok (1#64 <<< n - 1#64) := by
  have hshift : Word.shiftLeft? 1#64 n = .ok (1#64 <<< n) := if_pos (by omega)
  have hsub := Word.sub?_eq (w := 64) Word.fits64 fun n => Word.fits64_iff.trans (by omega)
  have hone : (1#64).toInt = 1 := by decide
  rw [maskInWords?, hshift]
  change Word.sub? (1#64 <<< n) 1#64 = _
  rw [hsub, hone]
  simp only [fits64_bit_sub_one_iff hn, ne_eq, ite_not]

/-- Divisibility is decided at every number of places but 63, where the mask leaves its word. -/
theorem dividedInWords?_eq (x : BitVec 64) (n : Nat) :
    dividedInWords? x n = if n = 63 then .error .overflow else .ok (dividedInWords x n) := by
  unfold dividedInWords? dividedInWords
  by_cases h0 : n = 0
  · simp [h0]
  · by_cases hn : n ≤ 63
    · rw [if_neg h0, if_pos hn, if_neg h0, if_pos hn, maskInWords?_eq hn]
      split <;> rfl
    · rw [if_neg h0, if_neg hn, if_neg h0, if_neg hn, if_neg (by omega)]

/-! ### The steps of a cache

A cache counts its words as integers, and refuses what these steps refuse. -/

theorem lowBitsZero?_eq (x : BitVec 64) (n : Nat) :
    lowBitsZero? x.toInt n = dividedInWords? x n := by
  rw [dividedInWords?_eq]
  unfold lowBitsZero? dividedInWords
  by_cases h0 : n = 0
  · simp [h0]
  · by_cases hn : n ≤ 63
    · have hbit : Int.bmod (1 <<< n) 0x10000000000000000 = (1#64 <<< n).toInt := by
        rw [BitVec.toInt_shiftLeft]
        rfl
      have hmask : decide (x.toInt % 1 <<< n = 0) = (Word.lowBits x n == 0#64) := by
        rw [Bool.eq_iff_iff, decide_eq_true_eq, beq_iff_eq, Word.lowBits_eq_zero_iff x hn,
          Nat.one_shiftLeft, Nat.cast_pow, Nat.cast_ofNat, Int.dvd_iff_emod_eq_zero]
      rw [if_neg h0, if_pos hn, if_neg h0, if_pos hn, hbit, hmask]
      simp only [fits64_bit_sub_one_iff hn, ne_eq, ite_not]
    · have hzero : decide (x.toInt = 0) = (x == 0#64) := by
        rw [Bool.eq_iff_iff, decide_eq_true_eq, beq_iff_eq, ← BitVec.toInt_inj, BitVec.toInt_zero]
      rw [if_neg h0, if_neg hn, if_neg h0, if_neg hn, if_neg (by omega), hzero]

theorem compareCoarser?_eq (coarse fine : BitVec 64) (gap : Nat) :
    compareCoarser? coarse.toInt fine.toInt gap = compareCoarserInWords? coarse fine gap := by
  unfold compareCoarser? compareCoarserInWords?
  rw [floorInWords?_eq, lowBitsZero?_eq]
  simp only [bind, Except.bind, BitVec.toInt_sshiftRight]
  rcases lt_trichotomy coarse.toInt (fine.toInt >>> min gap 63) with h | h | h
  · rw [compare_lt_iff_lt.2 h, if_neg h.ne, if_pos h]
  · rw [compare_eq_iff_eq.2 h, if_pos h]
  · rw [compare_gt_iff_gt.2 h, if_neg h.ne', if_neg h.not_gt]

theorem InWords.contains?_eq_inWords (hI : I.InWords) (hJ : J.InWords) :
    contains? I J = containsInWords? I J := by
  unfold contains? containsInWords?
  by_cases hp : J.power < I.power
  · simp only [if_pos hp]
  · rw [if_neg hp, if_neg hp, hI.gapInWords?_eq hJ (not_lt.1 hp)]
    cases gap? I.power J.power with
    | error fault => rfl
    | ok n =>
      have hfloor : decide (J.offset >>> min n 63 = I.offset) =
          (J.offsetWord.sshiftRight (min n 63) == I.offsetWord) := by
        rw [Bool.eq_iff_iff, decide_eq_true_eq, beq_iff_eq, ← BitVec.toInt_inj,
          BitVec.toInt_sshiftRight, hI.toInt_offsetWord, hJ.toInt_offsetWord]
      simp only [bind, Except.bind, floorInWords?_eq, hfloor]

theorem InWords.compare?_eq_inWords (hI : I.InWords) (hJ : J.InWords) :
    compare? I J = compareInWords? I J := by
  have hcoarser : ∀ {A B : DyadicInterval}, A.InWords → B.InWords → ∀ gap,
      compareCoarser? A.offset B.offset gap =
        compareCoarserInWords? A.offsetWord B.offsetWord gap := by
    intro A B hA hB gap
    rw [← compareCoarser?_eq, hA.toInt_offsetWord, hB.toInt_offsetWord]
  unfold compare? compareInWords?
  by_cases hp : J.power < I.power
  · rw [if_neg (not_le.2 hp), if_pos hp, hJ.gapInWords?_eq hI hp.le]
    simp only [hcoarser hJ hI]
  · rw [if_pos (not_lt.1 hp), if_neg hp, hI.gapInWords?_eq hJ (not_lt.1 hp)]
    simp only [hcoarser hI hJ]

/-! ### Where they overflow -/

theorem InWords.containsInWords?_eq (hI : I.InWords) (hJ : J.InWords)
    (hgap : Word.fits32 (J.power - I.power) = true) :
    containsInWords? I J = .ok (I.contains J) := by
  rw [← hI.containsInWords_eq hJ]
  unfold containsInWords? containsInWords
  by_cases hp : J.power < I.power
  · rw [if_pos hp, if_pos hp]
    rfl
  · rw [if_neg hp, if_neg hp, hI.gapInWords?_eq hJ (not_lt.1 hp), gap?_eq hgap,
      hI.gapWord_eq hJ (not_lt.1 hp)]
    simp only [bind, Except.bind, floorInWords?_eq]
    rfl

theorem eq_ancestor_iff {n : Nat} (hp : I.power ≤ J.power) :
    I = J.ancestor n ↔ (J.power - I.power).toNat = n ∧ I.offset = J.offset >>> n := by
  constructor
  · rintro rfl
    rw [ancestor_power]
    exact ⟨by omega, rfl⟩
  · rintro ⟨hn, ho⟩
    ext
    · exact ho
    · rw [ancestor_power]
      omega

theorem ne_ancestor_of_power_le (hp : J.power ≤ I.power) (n : Nat) : I ≠ J.ancestor (n + 1) := by
  apply ne_of_power_ne
  rw [ancestor_power]
  omega

/-- Only if the finer floor is the coarser offset is the mask asked for, and at 63 levels that makes
the coarser interval the ancestor of the finer one. -/
theorem InWords.compareCoarserInWords?_eq (hI : I.InWords) (hJ : J.InWords)
    (hp : I.power ≤ J.power) :
    compareCoarserInWords? I.offsetWord J.offsetWord (J.power - I.power).toNat =
      if I = J.ancestor 63 then .error .overflow else .ok (compareCoarserInWords I J) := by
  rw [← hI.gapWord_eq hJ hp]
  unfold compareCoarserInWords? compareCoarserInWords
  simp only [floorInWords?_eq, dividedInWords?_eq, eq_ancestor_iff hp, ← hI.gapWord_eq hJ hp,
    bind, Except.bind, Word.toInt_sshiftRight_min, hI.toInt_offsetWord, hJ.toInt_offsetWord]
  generalize gapWord I J = n
  cases hcompare : compare I.offset (J.offset >>> n) with
  | eq =>
    have hfloor : I.offset = J.offset >>> n := compare_eq_iff_eq.1 hcompare
    by_cases hn : n = 63
    · rw [if_pos hn, if_pos ⟨hn, hn ▸ hfloor⟩]
    · rw [if_neg hn, if_neg fun h => hn h.1]
      rfl
  | lt =>
    have hnot : ¬(n = 63 ∧ I.offset = J.offset >>> (63 : Nat)) := by
      rintro ⟨rfl, hfloor⟩
      exact (compare_lt_iff_lt.1 hcompare).ne hfloor
    rw [if_neg hnot]
    rfl
  | gt =>
    have hnot : ¬(n = 63 ∧ I.offset = J.offset >>> (63 : Nat)) := by
      rintro ⟨rfl, hfloor⟩
      exact (compare_gt_iff_gt.1 hcompare).ne' hfloor
    rw [if_neg hnot]
    rfl

theorem InWords.compareInWords?_eq (hI : I.InWords) (hJ : J.InWords)
    (hIJ : Word.fits32 (J.power - I.power) = true) (hJI : Word.fits32 (I.power - J.power) = true) :
    compareInWords? I J =
      if I = J.ancestor 63 ∨ J = I.ancestor 63 then .error .overflow else .ok (compare I J) := by
  rw [← hI.compareInWords_eq hJ]
  unfold compareInWords? compareInWords
  by_cases hp : J.power < I.power
  · have hnot : I ≠ J.ancestor 63 := ne_ancestor_of_power_le hp.le 62
    simp only [if_pos hp, hJ.gapInWords?_eq hI hp.le, gap?_eq hJI, bind, Except.bind,
      hJ.compareCoarserInWords?_eq hI hp.le, or_iff_right hnot]
    by_cases h : J = I.ancestor 63
    · simp only [if_pos h]
      rfl
    · simp only [if_neg h]
      rfl
  · have hnot : J ≠ I.ancestor 63 := ne_ancestor_of_power_le (not_lt.1 hp) 62
    simp only [if_neg hp, hI.gapInWords?_eq hJ (not_lt.1 hp), gap?_eq hIJ, bind, Except.bind,
      hI.compareCoarserInWords?_eq hJ (not_lt.1 hp), or_iff_left hnot]
    by_cases h : I = J.ancestor 63
    · simp only [if_pos h]
    · simp only [if_neg h]
      rfl

/-- Where the powers differ by no more than their word holds, in either order, the test for nesting
never overflows, and the key order overflows exactly if one of the intervals is the ancestor of the
other 63 levels up; everywhere else both are exact. Of the steps on the way, a floor is computed at
any number of places, and divisibility is decided at any but 63. -/
theorem key_tests_overflow_iff_ancestor (hI : I.InWords) (hJ : J.InWords)
    (hIJ : Word.fits32 (J.power - I.power) = true) (hJI : Word.fits32 (I.power - J.power) = true) :
    (∀ (x : BitVec 64) (n : Nat), ∃ floor, floorInWords? x n = .ok floor ∧
      floor.toInt = x.toInt >>> n) ∧
    (∀ (x : BitVec 64) (n : Nat), dividedInWords? x n =
      if n = 63 then .error .overflow else .ok (decide ((2 : Int) ^ n ∣ x.toInt))) ∧
    contains? I J = containsInWords? I J ∧ containsInWords? I J = .ok (I.contains J) ∧
    compare? I J = compareInWords? I J ∧
    compareInWords? I J =
      if I = J.ancestor 63 ∨ J = I.ancestor 63 then .error .overflow else .ok (compare I J) := by
  refine ⟨?_, ?_, hI.contains?_eq_inWords hJ, hI.containsInWords?_eq hJ hIJ,
    hI.compare?_eq_inWords hJ, hI.compareInWords?_eq hJ hIJ hJI⟩
  · intro x n
    exact ⟨_, floorInWords?_eq x n, Word.toInt_sshiftRight_min x n⟩
  · intro x n
    have hdivided : dividedInWords x n = decide ((2 : Int) ^ n ∣ x.toInt) := by
      rw [Bool.eq_iff_iff, dividedInWords_iff, decide_eq_true_eq]
    rw [dividedInWords?_eq, hdivided]

/-- One level beyond the mask of 63 bits, an interval that starts where its ancestor does comes
after it. -/
theorem key_tests_exact_below_sign_bit :
    let I : DyadicInterval := ⟨0, -12⟩
    let J : DyadicInterval := ⟨0, 52⟩
    I.InWords ∧ J.InWords ∧ Word.fits32 (J.power - I.power) = true ∧
      Word.fits32 (I.power - J.power) = true ∧
      contains? I J = .ok true ∧ compare? I J = .ok .lt := by
  intro I J
  have hI : I.InWords := ⟨by decide, by decide⟩
  have hJ : J.InWords := ⟨by decide, by decide⟩
  have hIJ : Word.fits32 (J.power - I.power) = true := by decide
  have hJI : Word.fits32 (I.power - J.power) = true := by decide
  obtain ⟨-, -, hcontains, hnested, hcompare, horder⟩ :=
    key_tests_overflow_iff_ancestor hI hJ hIJ hJI
  have hnot : ¬(I = J.ancestor 63 ∨ J = I.ancestor 63) := by decide
  have hlt : compare I J = .lt := by decide
  have hin : I.contains J = true := by decide
  refine ⟨hI, hJ, hIJ, hJI, ?_, ?_⟩
  · rw [hcontains, hnested, hin]
  · rw [hcompare, horder, if_neg hnot, hlt]

/-- An interval of length `2^11` and the one of length `2^-52` that starts with it are 63 levels
apart. The longer one comes first in key order, but the comparison overflows, whichever of them is
compared with the other. -/
theorem key_order_overflows_at_sign_bit :
    let I : DyadicInterval := ⟨0, -11⟩
    let J : DyadicInterval := ⟨0, 52⟩
    I.InWords ∧ J.InWords ∧ Word.fits32 (J.power - I.power) = true ∧
      Word.fits32 (I.power - J.power) = true ∧ compare I J = .lt ∧
      compare? I J = .error .overflow ∧ compare? J I = .error .overflow ∧
      compareInWords? I J = .error .overflow ∧ compareInWords? J I = .error .overflow := by
  intro I J
  refine ⟨⟨by decide, by decide⟩, ⟨by decide, by decide⟩, by decide, by decide, ?_, ?_, ?_, ?_, ?_⟩
  all_goals decide

end DyadicInterval

end SignatureCache
