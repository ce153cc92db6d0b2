import SignatureCache.Proofs.DyadicInterval.Span
import SignatureCache.Proofs.Number.Words

/-!
# The key order in words

A cache compares its keys in machine words. Nesting is a shift of the finer offset, rounded down,
and left ends are compared by that shift and by a mask that tells whether anything was rounded.
Shifts are cut down to the places that a word has, the mask is only taken where a word has that many
bits, and what overflows wraps around. Still it is the exact comparison, whatever the offsets and
however far apart the powers are, and the exact comparison is the one of the ranges that intervals
stand for.
-/

namespace SignatureCache

namespace DyadicInterval

variable {I J K : DyadicInterval}

/-! ### In words -/

/-- Offset and power fit the words that hold them. -/
structure InWords (I : DyadicInterval) : Prop where
  offset : Word.fits64 I.offset = true
  power : Word.fits32 I.power = true

/-- The word that holds the offset. -/
def offsetWord (I : DyadicInterval) : BitVec 64 :=
  BitVec.ofInt 64 I.offset

/-- The number of levels from `I` down to `J`, as a difference of words of 32 bits. -/
def gapWord (I J : DyadicInterval) : Nat :=
  (BitVec.ofInt 32 J.power - BitVec.ofInt 32 I.power).toNat

/-- Whether `J` is nested in `I`, by a floor shift of at most 63 places. -/
def containsInWords (I J : DyadicInterval) : Bool :=
  if J.power < I.power then false
  else J.offsetWord.sshiftRight (min (gapWord I J) 63) == I.offsetWord

/-- Whether `2^n` divides a word, by a mask where the word has that many bits. -/
def dividedInWords (x : BitVec 64) (n : Nat) : Bool :=
  if n = 0 then true
  else if n ≤ 63 then Word.lowBits x n == 0#64
  else x == 0#64

/-- Compares the left end of a coarser interval with that of a finer one. -/
def compareCoarserInWords (coarse fine : DyadicInterval) : Ordering :=
  match compare coarse.offsetWord.toInt
    (fine.offsetWord.sshiftRight (min (gapWord coarse fine) 63)).toInt with
  | .eq => if dividedInWords fine.offsetWord (gapWord coarse fine) then .eq else .lt
  | ordering => ordering

/-- The key order, computed in words that wrap around. -/
def compareInWords (I J : DyadicInterval) : Ordering :=
  let start :=
    if J.power < I.power then (compareCoarserInWords J I).swap else compareCoarserInWords I J
  start.then (compare I.power J.power)

theorem InWords.toInt_offsetWord (h : I.InWords) : I.offsetWord.toInt = I.offset :=
  Word.toInt_ofInt64 h.offset

theorem InWords.gapWord_eq (hI : I.InWords) (hJ : J.InWords) (hp : I.power ≤ J.power) :
    gapWord I J = (J.power - I.power).toNat := by
  have hI := Word.fits32_iff.1 hI.power
  have hJ := Word.fits32_iff.1 hJ.power
  rw [gapWord, BitVec.toNat_sub, BitVec.toNat_ofInt, BitVec.toNat_ofInt]
  omega

theorem InWords.containsInWords_eq (hI : I.InWords) (hJ : J.InWords) :
    containsInWords I J = I.contains J := by
  rw [Bool.eq_iff_iff, contains_iff]
  unfold containsInWords
  split
  · next hp => exact iff_of_false Bool.false_ne_true fun h => not_lt.2 h.1 hp
  · next hp =>
    rw [beq_iff_eq, ← BitVec.toInt_inj, Word.toInt_sshiftRight_min, hI.toInt_offsetWord,
      hJ.toInt_offsetWord, hI.gapWord_eq hJ (not_lt.1 hp)]
    exact (and_iff_right (not_lt.1 hp)).symm

/-- A power of two divides a word as it divides the integer. -/
theorem dividedInWords_iff (x : BitVec 64) (n : Nat) :
    dividedInWords x n = true ↔ (2 : Int) ^ n ∣ x.toInt := by
  unfold dividedInWords
  split
  · next h0 => simp [h0]
  · split
    · next hn => rw [beq_iff_eq, Word.lowBits_eq_zero_iff x hn]
    · next hn =>
      rw [beq_iff_eq, ← BitVec.toInt_inj, BitVec.toInt_zero]
      constructor
      · intro h
        rw [h]
        exact dvd_zero _
      · intro h
        -- Only zero is a multiple of a power of two beyond the word.
        have hpow : (2 : Int) ^ 64 ∣ x.toInt := (pow_dvd_pow 2 (by omega)).trans h
        have hge : -2 ^ 63 ≤ x.toInt := BitVec.le_toInt x
        have hlt : x.toInt < 2 ^ 63 := BitVec.toInt_lt
        omega

/-- A floor and a test for divisibility decide how left ends compare. -/
theorem InWords.compareCoarserInWords_eq (hI : I.InWords) (hJ : J.InWords)
    (hp : I.power ≤ J.power) :
    compareCoarserInWords I J = compareCoarser I.offset J.offset (J.power - I.power).toNat := by
  rw [compareCoarser_eq, Int.shiftLeft_eq]
  unfold compareCoarserInWords
  rw [hI.gapWord_eq hJ hp, Word.toInt_sshiftRight_min, hI.toInt_offsetWord, hJ.toInt_offsetWord]
  generalize (J.power - I.power).toNat = n
  have hdivided := dividedInWords_iff J.offsetWord n
  rw [hJ.toInt_offsetWord] at hdivided
  have hfloor := floor_lt_iff I.offset J.offset n
  have hnext := floor_lt_iff (I.offset + 1) J.offset n
  rw [Int.shiftLeft_eq] at hfloor hnext
  rcases lt_trichotomy I.offset (J.offset >>> n) with h | h | h
  · have hlt : I.offset * 2 ^ n < J.offset := by
      have hpos : (0 : Int) < 2 ^ n := by positivity
      rw [add_one_mul] at hnext
      omega
    rw [compare_lt_iff_lt.2 h, compare_lt_iff_lt.2 hlt]
  · have hle : I.offset * 2 ^ n ≤ J.offset := by omega
    rw [compare_eq_iff_eq.2 h]
    have hrest : (2 : Int) ^ n ∣ J.offset ↔ I.offset * 2 ^ n = J.offset := by
      rw [h, Int.shiftRight_eq_div_pow, Int.natCast_pow, Int.cast_ofNat_Int]
      exact ⟨Int.ediv_mul_cancel, fun heq => ⟨_, by rw [mul_comm, heq]⟩⟩
    by_cases hd : dividedInWords J.offsetWord n = true
    · simp only [hd, if_true]
      rw [compare_eq_iff_eq.2 (hrest.1 (hdivided.1 hd))]
    · simp only [hd]
      rw [compare_lt_iff_lt.2 (lt_of_le_of_ne hle fun heq => hd (hdivided.2 (hrest.2 heq)))]
      rfl
  · have hlt : J.offset < I.offset * 2 ^ n := hfloor.1 h
    rw [compare_gt_iff_gt.2 h, compare_gt_iff_gt.2 hlt]

theorem InWords.compareInWords_eq (hI : I.InWords) (hJ : J.InWords) :
    compareInWords I J = compare I J := by
  change _ = (compareStart I J).then (compare I.power J.power)
  unfold compareInWords compareStart
  split
  · next hp => rw [if_neg (not_le.2 hp), hJ.compareCoarserInWords_eq hI hp.le]
  · next hp => rw [if_pos (not_lt.1 hp), hI.compareCoarserInWords_eq hJ (not_lt.1 hp)]

/-! ### Against the exact ranges -/

/-- The key order is lexicographic in the left end and the power. -/
theorem compare_eq_lex (I J : DyadicInterval) :
    compare I J = (compare I.lower J.lower).then (compare I.power J.power) := by
  have hlt : ∀ {A B : DyadicInterval}, Before A B →
      (compare A.lower B.lower).then (compare A.power B.power) = .lt := by
    intro A B h
    rcases before_iff.1 h with h | ⟨h, hp⟩
    · rw [compare_lt_iff_lt.2 h]
      rfl
    · rw [compare_eq_iff_eq.2 h, compare_lt_iff_lt.2 hp]
      rfl
  rcases before_trichotomy I J with h | rfl | h
  · rw [hlt h, h]
  · have hself : compare I I = .eq := Std.ReflCmp.compare_self
    rw [hself, compare_eq_iff_eq.2 rfl, compare_eq_iff_eq.2 rfl]
    rfl
  · have hswap : compare I J = (compare J I).swap := Std.OrientedCmp.eq_swap
    rw [hswap, h, ← hlt h, Ordering.swap_then, ← Std.OrientedCmp.eq_swap,
      ← Std.OrientedCmp.eq_swap]

/-- Computed in words, nesting and the key order are exact: nesting is inclusion of ranges, and keys
compare by their left ends and then by their powers. So the key order is a total order that only
takes an interval to be equal to itself, two intervals are nested or do not meet, and what comes
later in key order is nested in what came before, or lies to the right of it. -/
theorem key_order_exact :
    (∀ I J : DyadicInterval, I.InWords → J.InWords →
      containsInWords I J = I.contains J ∧ compareInWords I J = compare I J) ∧
    (∀ I J : DyadicInterval, I.contains J = true ↔ J.range ⊆ I.range) ∧
    (∀ I J : DyadicInterval,
      compare I J = (compare I.lower J.lower).then (compare I.power J.power)) ∧
    (∀ I J : DyadicInterval, compare I J = .eq ↔ I = J) ∧
    (∀ I J : DyadicInterval, compare J I = (compare I J).swap) ∧
    (∀ I J K : DyadicInterval, compare I J = .lt → compare J K = .lt → compare I K = .lt) ∧
    (∀ I J : DyadicInterval,
      I.contains J = true ∨ J.contains I = true ∨ Disjoint I.range J.range) ∧
    ∀ I J : DyadicInterval, compare I J = .lt → I.contains J = true ∨ I.upper ≤ J.lower := by
  refine ⟨?_, fun I J => contains_iff_range_subset, compare_eq_lex, ?_, ?_, ?_, ?_, ?_⟩
  · intro I J hI hJ
    exact ⟨hI.containsInWords_eq hJ, hI.compareInWords_eq hJ⟩
  · intro I J
    exact Std.LawfulEqOrd.compare_eq_iff_eq
  · intro I J
    exact Std.OrientedCmp.eq_swap
  · intro I J K hIJ hJK
    exact Before.trans hIJ hJK
  · intro I J
    exact (nested_or_apart I J).imp_right (Or.imp_right Apart.disjoint_range)
  · intro I J hIJ
    exact contains_or_upper_le (Before.asymm hIJ)

/-- The interval 63 levels below `[-1, 0)` that starts where it does has the least word as its
offset, and the mask of the bits below the sign finds them all zero. -/
theorem key_order_exact_at_sign_bit :
    let I : DyadicInterval := ⟨-1, 0⟩
    let J : DyadicInterval := ⟨-0x8000000000000000, 63⟩
    let K : DyadicInterval := ⟨0, 0⟩
    I.InWords ∧ J.InWords ∧ containsInWords I J = true ∧ compareInWords I J = .lt ∧
      compare I J = .lt ∧ compare J K = .lt ∧ compare I K = .lt ∧
      (J.contains K = true ∨ J.upper ≤ K.lower) := by
  intro I J K
  have hI : I.InWords := ⟨by decide, by decide⟩
  have hJ : J.InWords := ⟨by decide, by decide⟩
  have hIJ : compare I J = .lt := by decide
  have hJK : compare J K = .lt := by decide
  obtain ⟨hwords, -, -, -, -, htrans, -, hends⟩ := key_order_exact
  obtain ⟨hcontains, hcompare⟩ := hwords I J hI hJ
  refine ⟨hI, hJ, ?_, hcompare.trans hIJ, hIJ, hJK, htrans I J K hIJ hJK, hends J K hJK⟩
  rw [hcontains]
  decide

end DyadicInterval

end SignatureCache
