import SignatureCache.Proofs.DyadicInterval.Span

/-!
# The following interval

Coarsening keeps the left end and stops at the coarsest interval with that left end, down to a
floor. So of all intervals no coarser than the floor, those that do not come before the following
interval are those that start where the given one ends, or later. Coarsening is a loop over parents
that ends at the floor at the latest.
-/

namespace SignatureCache

namespace DyadicInterval

theorem lower_parent_of_half_left {I : DyadicInterval} (h : I.half = .left) :
    I.parent.lower = I.lower := by
  rw [← lower_left, ← eq_left_of_half h]

theorem lower_parent_of_half_right {I : DyadicInterval} (h : I.half = .right) :
    I.parent.lower < I.lower := by
  have hl := I.parent.left.lower_lt_upper
  rwa [upper_left, lower_left, ← eq_right_of_half h] at hl

@[simp] theorem lower_coarsen (floor : Int) (I : DyadicInterval) :
    (coarsen floor I).lower = I.lower := by
  fun_induction coarsen floor I with
  | case1 => rfl
  | case2 I _ h0 => simp [lower, h0]
  | case3 I _ _ heven ih => rw [ih, lower_parent_of_half_left ((half_eq_left_iff I).2 heven)]
  | case4 => rfl

/-- Of the intervals with one left end that are no coarser than the floor, coarsening finds the
coarsest. -/
theorem power_coarsen_le {floor : Int} {I J : DyadicInterval} (hl : J.lower = I.lower)
    (hJ : floor ≤ J.power) : (coarsen floor I).power ≤ J.power := by
  fun_induction coarsen floor I with
  | case1 I hp => exact hp.trans hJ
  | case2 => exact hJ
  | case3 I _ _ heven ih =>
    apply ih
    rw [hl, lower_parent_of_half_left ((half_eq_left_iff I).2 heven)]
  | case4 I hp _ hodd =>
    by_contra hlt
    rw [not_le] at hlt
    have hright : I.half = .right := (half_eq_right_iff I).2 (by omega)
    -- A coarser interval that starts with a right half would start before its parent does.
    have hI := I.lower_lt_upper
    have hJ' := J.lower_lt_upper
    rcases contains_or_disjoint hlt.le with hc | hc | hc
    · have hparent := contains_parent_of_ne hc (ne_of_power_ne hlt.ne')
      have hle := (contains_iff_range.1 hparent).1
      have hpl := lower_parent_of_half_right hright
      linarith
    · linarith
    · linarith

@[simp] theorem lower_following (I : DyadicInterval) (floor : Int) :
    (I.following floor).lower = I.upper := by
  rw [following, lower_coarsen]
  have hw : (⟨I.offset + 1, I.power⟩ : DyadicInterval).width = I.width :=
    width_eq_of_power_eq rfl
  rw [lower, hw, upper, lower]
  push_cast
  ring

/-- Past the following interval is past the end. -/
theorem not_before_following_iff {I J : DyadicInterval} {floor : Int} (hJ : floor ≤ J.power) :
    ¬ Before J (I.following floor) ↔ I.upper ≤ J.lower := by
  rw [before_iff, lower_following]
  constructor
  · intro h
    by_contra hlt
    exact h (.inl (not_le.1 hlt))
  · rintro hle (hlt | ⟨heq, hp⟩)
    · linarith
    · have hc : (I.following floor).power ≤ J.power := by
        apply power_coarsen_le _ hJ
        rw [heq, ← lower_following I floor, following, lower_coarsen]
      omega

/-! ### The way there -/

variable {I J : DyadicInterval} {floor : Int}

/-- Taking parents from an interval on, as long as it is a left half and finer than `floor`, comes
to an end at another one. -/
inductive Coarsens (floor : Int) : DyadicInterval → DyadicInterval → Prop
  | done {I : DyadicInterval} (h : ¬ (floor < I.power ∧ I.half = .left)) : Coarsens floor I I
  | next {I J : DyadicInterval} (hp : floor < I.power) (hl : I.half = .left)
      (h : Coarsens floor I.parent J) : Coarsens floor I J

theorem coarsens_zero (hp : floor ≤ I.power) (h0 : I.offset = 0) : Coarsens floor I ⟨0, floor⟩ := by
  obtain ⟨n, hn⟩ : ∃ n : Nat, I.power = floor + n := ⟨(I.power - floor).toNat, by omega⟩
  induction n generalizing I with
  | zero =>
    have hI : I = ⟨0, floor⟩ := DyadicInterval.ext h0 (by simpa using hn)
    subst hI
    exact .done (by simp)
  | succ n ih =>
    have hl : I.half = .left := (half_eq_left_iff I).2 (by omega)
    refine .next (by omega) hl (ih ?_ ?_ ?_)
    · rw [parent_power]
      omega
    · rw [parent_offset]
      omega
    · rw [parent_power]
      omega

/-- Coarsening comes to its end by parents, also where it gets there at once. -/
theorem coarsens_coarsen (hp : floor ≤ I.power) : Coarsens floor I (coarsen floor I) := by
  fun_induction coarsen floor I with
  | case1 I hle => exact .done fun h => not_lt.2 hle h.1
  | case2 I hlt h0 => exact coarsens_zero hp h0
  | case3 I hlt h0 heven ih =>
    refine .next (not_le.1 hlt) ((half_eq_left_iff I).2 heven) (ih ?_)
    rw [parent_power]
    omega
  | case4 I hlt h0 hodd => exact .done fun h => hodd ((half_eq_left_iff I).1 h.2)

theorem Coarsens.power_ge (h : Coarsens floor I J) (hp : floor ≤ I.power) : floor ≤ J.power := by
  induction h with
  | done => exact hp
  | next hlt _ _ ih =>
    apply ih
    rw [parent_power]
    omega

end DyadicInterval

end SignatureCache
