import SignatureCache.Proofs.DyadicInterval.Overflow

/-!
# Intervals too far apart to compare

A comparison in words either gives the key order or overflows. It only overflows between intervals
that are far apart: one of them is the ancestor of the other 63 levels up, or the difference of
their powers is no word. This is so whatever their offsets are.
-/

namespace SignatureCache

namespace DyadicInterval

variable {I J : DyadicInterval} {cause : Fault}

/-- One interval is the ancestor of the other 63 levels up, or the difference of their powers leaves
its word. -/
def Far (I J : DyadicInterval) : Prop :=
  I = J.ancestor 63 ∨ J = I.ancestor 63 ∨
    Word.fits32 (J.power - I.power) = false ∨ Word.fits32 (I.power - J.power) = false

theorem not_fits32_of_gap? {coarse fine : Int} (h : gap? coarse fine = .error cause) :
    Word.fits32 (fine - coarse) = false := by
  rw [gap?] at h
  split at h
  · cases h
  · next hfits => exact Bool.eq_false_iff.2 hfits

theorem eq_of_gap? {coarse fine : Int} {gap : Nat} (h : gap? coarse fine = .ok gap) :
    Word.fits32 (fine - coarse) = true ∧ gap = (fine - coarse).toNat := by
  rw [gap?] at h
  split at h
  · next hfits =>
    cases h
    exact ⟨hfits, rfl⟩
  · cases h

theorem eq_of_lowBitsZero? {x : Int} {n : Nat} (h : lowBitsZero? x n = .error cause) : n = 63 := by
  rw [lowBitsZero?] at h
  split at h
  · cases h
  · split at h
    · next hn =>
      have hbit : Int.bmod (1 <<< n) 0x10000000000000000 = (1#64 <<< n).toInt := by
        rw [BitVec.toInt_shiftLeft]
        rfl
      rw [hbit] at h
      by_contra hne
      rw [if_pos ((fits64_bit_sub_one_iff hn).2 hne)] at h
      cases h
    · cases h

theorem eq_of_compareCoarser? {coarse fine : Int} {gap : Nat}
    (h : compareCoarser? coarse fine gap = .error cause) :
    gap = 63 ∧ coarse = fine >>> gap := by
  rw [compareCoarser?] at h
  split at h
  · next hfloor =>
    cases hbits : lowBitsZero? fine gap with
    | ok zero =>
      rw [hbits] at h
      cases h
    | error cause' =>
      obtain rfl := eq_of_lowBitsZero? hbits
      exact ⟨rfl, hfloor⟩
  · cases h

theorem far_of_contains? (h : I.contains? J = .error cause) : Far I J := by
  rw [contains?] at h
  split at h
  · cases h
  · cases hgap : gap? I.power J.power with
    | ok gap =>
      rw [hgap] at h
      cases h
    | error cause' => exact .inr (.inr (.inl (not_fits32_of_gap? hgap)))

theorem far_of_compareCoarser? {f : Ordering → Ordering} (hp : I.power ≤ J.power)
    (h : (do
      let gap ← gap? I.power J.power
      return f (← compareCoarser? I.offset J.offset gap)) = .error cause) :
    I = J.ancestor 63 ∨ Word.fits32 (J.power - I.power) = false := by
  cases hgap : gap? I.power J.power with
  | error cause' => exact .inr (not_fits32_of_gap? hgap)
  | ok gap =>
    obtain ⟨-, rfl⟩ := eq_of_gap? hgap
    cases hcoarser : compareCoarser? I.offset J.offset (J.power - I.power).toNat with
    | error cause' =>
      obtain ⟨h63, hfloor⟩ := eq_of_compareCoarser? hcoarser
      exact .inl ((eq_ancestor_iff hp).2 ⟨h63, h63 ▸ hfloor⟩)
    | ok order =>
      simp only [hgap, hcoarser, bind, Except.bind, pure, Except.pure] at h
      cases h

/-- A comparison only overflows between intervals that are far apart. -/
theorem far_of_compare? (h : I.compare? J = .error cause) : Far I J := by
  unfold compare? at h
  split at h
  · next hp =>
    rcases far_of_compareCoarser? (f := fun order => order.then (compare I.power J.power)) hp h with
      hancestor | hgap
    · exact .inl hancestor
    · exact .inr (.inr (.inl hgap))
  · next hp =>
    simp only [bind_map_left] at h
    rcases far_of_compareCoarser? (f := fun order => order.swap.then (compare I.power J.power))
      (not_le.1 hp).le h with hancestor | hgap
    · exact .inr (.inl hancestor)
    · exact .inr (.inr (.inr hgap))

/-- A comparison that does not overflow counts the levels between both powers. -/
theorem fits32_of_compare? {order : Ordering} (h : I.compare? J = .ok order) :
    Word.fits32 (J.power - I.power) = true ∧ Word.fits32 (I.power - J.power) = true := by
  unfold compare? at h
  split at h
  · next hp =>
    cases hgap : gap? I.power J.power with
    | error cause =>
      rw [hgap] at h
      cases h
    | ok gap =>
      obtain ⟨hfits, -⟩ := eq_of_gap? hgap
      refine ⟨hfits, ?_⟩
      rw [Word.fits32_iff] at hfits ⊢
      omega
  · next hp =>
    cases hgap : gap? J.power I.power with
    | error cause =>
      rw [hgap] at h
      cases h
    | ok gap =>
      obtain ⟨hfits, -⟩ := eq_of_gap? hgap
      refine ⟨?_, hfits⟩
      rw [Word.fits32_iff] at hfits ⊢
      omega

/-- A comparison that does not overflow is exact. -/
theorem InWords.eq_of_compare? (hI : I.InWords) (hJ : J.InWords) {order : Ordering}
    (h : I.compare? J = .ok order) : order = compare I J := by
  obtain ⟨hIJ, hJI⟩ := fits32_of_compare? h
  rw [hI.compare?_eq_inWords hJ, hI.compareInWords?_eq hJ hIJ hJI] at h
  split at h
  · cases h
  · cases h
    rfl

end DyadicInterval

end SignatureCache
