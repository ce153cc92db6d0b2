import SignatureCache.DyadicInterval.Basic

/-!
# The way to a common ancestor

Two offsets on one side of zero get closer to each other whenever both are halved, until they meet.
So the parents of an interval, taken one after the other, come to contain any given interval on its
side of zero. `distance` measures how far an interval is from that, and `distance_parent_lt` says
that every parent is closer.
-/

namespace SignatureCache

namespace DyadicInterval

/-- How far an offset is from the one that all offsets on its side of zero are halved to. -/
def magnitude (k : Int) : Nat :=
  if k < 0 then (-k - 1).toNat else k.toNat

/-- How far `root` is from containing `target`: the levels it is too fine by, and the magnitudes of
both offsets at the level of `root`. -/
def distance (root target : DyadicInterval) : Nat :=
  (root.power - target.power).toNat + magnitude root.offset +
    magnitude (target.offset >>> (target.power - root.power).toNat)

theorem magnitude_half_le (k : Int) : magnitude (k / 2) ≤ magnitude k := by
  unfold magnitude
  split <;> split <;> omega

theorem magnitude_half_lt {k : Int} (h : magnitude k ≠ 0) : magnitude (k / 2) < magnitude k := by
  unfold magnitude at h ⊢
  split <;> split <;> simp_all <;> omega

theorem shiftRight_neg_iff (k : Int) (n : Nat) : k >>> n < 0 ↔ k < 0 := by
  have hpos : (0 : Int) < 2 ^ n := Int.pow_pos (by decide)
  rw [Int.shiftRight_eq_div_pow, Int.natCast_pow, Int.cast_ofNat_Int,
    Int.ediv_lt_iff_lt_mul hpos, Int.zero_mul]

theorem shiftRight_succ (k : Int) (n : Nat) : k >>> (n + 1) = (k >>> n) / 2 := by
  rw [Int.shiftRight_add, Int.shiftRight_eq_div_pow]
  rfl

theorem SameSide.parent {root target : DyadicInterval} (h : SameSide root target) :
    SameSide root.parent target := by
  unfold SameSide at h ⊢
  rw [← h, parent_offset]
  omega

/-- Halving the root brings it closer to any target on its side that it does not contain. -/
theorem distance_parent_lt {root target : DyadicInterval} (hs : SameSide root target)
    (hc : root.contains target = false) : distance root.parent target < distance root target := by
  unfold distance
  simp only [parent_power, parent_offset]
  have hroot := magnitude_half_le root.offset
  by_cases hp : root.power ≤ target.power
  · obtain ⟨n, hn⟩ : ∃ n : Nat, target.power - root.power = n :=
      ⟨(target.power - root.power).toNat, by omega⟩
    have h0 : (target.power - root.power).toNat = n := by omega
    have h1 : (target.power - (root.power - 1)).toNat = n + 1 := by omega
    have h2 : (root.power - 1 - target.power).toNat = (root.power - target.power).toNat := by omega
    rw [h0, h1, h2, shiftRight_succ]
    have hne : target.offset >>> n ≠ root.offset := by
      intro heq
      have : root.contains target = true := by
        rw [contains_iff]
        exact ⟨hp, by rw [h0, heq]⟩
      simp [this] at hc
    have hside : target.offset >>> n < 0 ↔ root.offset < 0 := by
      rw [shiftRight_neg_iff]
      exact hs.symm
    have htarget := magnitude_half_le (target.offset >>> n)
    by_cases hr : magnitude root.offset = 0
    · have ht : magnitude (target.offset >>> n) ≠ 0 := by
        intro ht
        apply hne
        unfold magnitude at hr ht
        split at hr <;> split at ht <;> omega
      have := magnitude_half_lt ht
      omega
    · have := magnitude_half_lt hr
      omega
  · have h0 : (target.power - root.power).toNat = 0 := by omega
    have h1 : (target.power - (root.power - 1)).toNat = 0 := by omega
    rw [h0, h1]
    omega

end DyadicInterval

end SignatureCache
