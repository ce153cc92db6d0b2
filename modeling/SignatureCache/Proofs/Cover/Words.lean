import SignatureCache.Proofs.Cover.Maximal
import SignatureCache.Proofs.Number.Words

/-!
# Covering a range in words

A range is covered in machine words by two loops: the outer one goes from piece to piece, and the
inner one doubles a block as long as a mask says that its double is aligned and its double does not
reach beyond the range. Numbers that leave their words end the loops with a fault. Between grid
points none does, and the loops come to their end with the cover.
-/

namespace SignatureCache

namespace Dissection

variable {k lo hi resolution : Int} {room level : Nat}

/-- Doubles a block of `2^level` grid points from `k` on while that is aligned and ends by `hi`. -/
def growBlock? (k hi : Int) (level : Nat) : Except Fault Nat :=
  if level < 62 then
    if Word.lowBits (BitVec.ofInt 64 k) (level + 1) ≠ 0#64 then .ok level
    else if !Word.fits64 (k + 1 <<< (level + 1)) then .error .overflow
    else if hi < k + 1 <<< (level + 1) then .ok level
    else growBlock? k hi (level + 1)
  else .ok level
termination_by 62 - level

/-- Covers the grid points from `k` up to `hi`, each time by the block that grows at the point
reached. -/
def coverInWords? (k hi resolution : Int) : Except Fault (List DyadicInterval) :=
  if k < hi then do
    let level ← growBlock? k hi 0
    if !Word.fits32 (resolution - level) then .error .overflow
    else if !Word.fits64 (k + 1 <<< level) then .error .overflow
    else
      let rest ← coverInWords? (k + 1 <<< level) hi resolution
      return ⟨((BitVec.ofInt 64 k).sshiftRight level).toInt, resolution - level⟩ :: rest
  else .ok []
termination_by (hi - k).toNat
decreasing_by
  have hpos := Nat.two_pow_pos level
  rw [Nat.one_shiftLeft]
  omega

section Range

variable (hlo : -offsetLimit ≤ k) (hhi : hi ≤ offsetLimit)

include hlo hhi

theorem fits64_of_range (hk : k ≤ hi) : Word.fits64 k = true := by
  rw [offsetLimit] at hlo hhi
  rw [Word.fits64_iff]
  omega

/-- The test of the mask is the test for a multiple. -/
theorem lowBits_eq_zero_iff_of_range (hk : k ≤ hi) {n : Nat} (hn : n ≤ 63) :
    Word.lowBits (BitVec.ofInt 64 k) n = 0#64 ↔ (2 : Int) ^ n ∣ k := by
  rw [Word.lowBits_eq_zero_iff _ hn, Word.toInt_ofInt64 (fits64_of_range hlo hhi hk)]

/-- Blocks of grid points have at most 53 levels. -/
theorem blockLevel_le_of_range (hk : k < hi) : blockLevel k (hi - k).toNat ≤ 53 := by
  have hroom : (hi - k).toNat ≠ 0 := by omega
  rw [offsetLimit] at hlo hhi
  by_contra hlevel
  obtain ⟨-, hfits⟩ := (le_blockLevel_iff hroom).1 (not_le.1 hlevel)
  omega

/-- The inner loop stops at the largest block, from whatever smaller one it starts. -/
theorem growBlock?_eq (hk : k < hi) (hlevel : level ≤ blockLevel k (hi - k).toNat) :
    growBlock? k hi level = .ok (blockLevel k (hi - k).toNat) := by
  have hroom : (hi - k).toNat ≠ 0 := by omega
  have hlast := blockLevel_le_of_range hlo hhi hk
  have hdouble : ∀ n, n ≤ blockLevel k (hi - k).toNat ↔
      (2 : Int) ^ n ∣ k ∧ 2 ^ n ≤ (hi - k).toNat := fun _ => le_blockLevel_iff hroom
  fun_induction growBlock? k hi level with
  | case1 level hbound hmask =>
    rw [ne_eq, lowBits_eq_zero_iff_of_range hlo hhi hk.le (by omega)] at hmask
    have hstop : ¬ level + 1 ≤ blockLevel k (hi - k).toNat :=
      fun h => hmask ((hdouble _).1 h).1
    rw [show level = blockLevel k (hi - k).toNat by omega]
  | case2 level hbound hmask hfits =>
    -- A double has at most 62 levels, and there is room for it above every grid point.
    have hpos := Nat.two_pow_pos (level + 1)
    have hsize : 2 ^ (level + 1) ≤ 2 ^ 62 := Nat.pow_le_pow_right (by omega) (by omega)
    rw [offsetLimit] at hlo hhi
    rw [Bool.not_eq_true', ← Bool.not_eq_true, Word.fits64_iff, Nat.one_shiftLeft] at hfits
    omega
  | case3 level hbound hmask hfits hover =>
    rw [Nat.one_shiftLeft] at hover
    have hstop : ¬ level + 1 ≤ blockLevel k (hi - k).toNat := by
      intro h
      have hinside := ((hdouble _).1 h).2
      omega
    rw [show level = blockLevel k (hi - k).toNat by omega]
  | case4 level hbound hmask hfits hinside ih =>
    rw [ne_eq, not_not, lowBits_eq_zero_iff_of_range hlo hhi hk.le (by omega)] at hmask
    rw [Nat.one_shiftLeft] at hinside
    exact ih ((hdouble _).2 ⟨hmask, by omega⟩)
  | case5 level hbound => omega

end Range

/-- The outer loop comes to its end with the cover, and nothing leaves its word on the way. -/
theorem coverInWords?_eq (hlo : -offsetLimit ≤ k) (hle : k ≤ hi) (hhi : hi ≤ offsetLimit)
    (hlow : lowestPower ≤ resolution) (hhigh : resolution ≤ 0x7fffffff) :
    coverInWords? k hi resolution = .ok (cover k hi resolution) := by
  unfold cover
  induction hroom : (hi - k).toNat using Nat.strong_induction_on generalizing k with
  | _ room ih =>
    unfold coverInWords?
    split
    · next hk =>
      have hne : (hi - k).toNat ≠ 0 := by omega
      have hlast := blockLevel_le_of_range hlo hhi hk
      have hfits := blockSize_le k hne
      generalize hlevel : blockLevel k (hi - k).toNat = level at *
      have hpos : 0 < 1 <<< level := by
        rw [Nat.one_shiftLeft]
        exact Nat.two_pow_pos level
      have hpower : Word.fits32 (resolution - level) = true := by
        rw [Word.fits32_iff]
        rw [lowestPower] at hlow
        omega
      have hnext : Word.fits64 (k + (1 <<< level : Nat)) = true :=
        fits64_of_range (by omega) hhi (by omega)
      have hrest := ih (hi - (k + (1 <<< level : Nat))).toNat (by omega)
        (k := k + (1 <<< level : Nat)) (by omega) (by omega) rfl
      have hremaining :
          (hi - (k + (1 <<< level : Nat))).toNat = (hi - k).toNat - 1 <<< level := by
        omega
      rw [growBlock?_eq hlo hhi hk (Nat.zero_le _), hlevel]
      simp only [Except.bind, bind, hpower, hnext, hrest]
      rw [← hroom, coverFrom_eq_cons hne, hlevel, ← hremaining, BitVec.toInt_sshiftRight,
        Word.toInt_ofInt64 (fits64_of_range hlo hhi hle)]
      rfl
    · next hk =>
      rw [← hroom, show (hi - k).toNat = 0 by omega, coverFrom, if_pos rfl]

end Dissection

end SignatureCache
