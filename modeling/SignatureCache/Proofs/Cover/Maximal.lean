import Mathlib.Data.List.Perm.Subperm
import SignatureCache.Proofs.Cover

/-!
# The canonical cover

The pieces of a grid range lie end to end and fill it. A piece that starts where its parent does has
a parent that reaches beyond the range, because the block that was made there could not be doubled.
An interval of the range meets the piece that its left end lies in, so they are nested, and it
cannot contain that piece without containing such a parent. So everything in the range lies inside
of a piece: the pieces are the maximal intervals of the range, and no cover has fewer members.
-/

namespace SignatureCache

namespace Dissection

open DyadicInterval

variable {k lo hi resolution : Int} {room : Nat} {x : ℚ} {I J K : DyadicInterval}

theorem add_toNat_sub (hle : lo ≤ hi) : lo + (hi - lo).toNat = hi := by
  omega

theorem cover_tiles (hle : lo ≤ hi) (resolution : Int) :
    Tiles (lower ⟨lo, resolution⟩) (cover lo hi resolution) (lower ⟨hi, resolution⟩) := by
  have htiles := coverFrom_tiles lo (hi - lo).toNat resolution
  rwa [add_toNat_sub hle] at htiles

theorem cover_apart (lo hi resolution : Int) : (cover lo hi resolution).Pairwise Apart :=
  coverFrom_apart lo _ resolution

theorem cover_nodup (lo hi resolution : Int) : (cover lo hi resolution).Nodup :=
  (cover_apart lo hi resolution).imp Apart.ne

/-- Pieces that share a point are one piece. -/
theorem eq_of_mem_cover (hI : I ∈ cover lo hi resolution) (hJ : J ∈ cover lo hi resolution)
    (hxI : x ∈ I.range) (hxJ : x ∈ J.range) : I = J := by
  by_contra hne
  have happart := (cover_apart lo hi resolution).forall hI hJ hne
  exact Set.disjoint_left.1 happart.disjoint_range hxI hxJ

/-! ### Blocks cannot be doubled -/

/-- Twice the largest block at a grid point is not aligned there or does not fit. -/
theorem not_double_block (k : Int) (room : Nat) :
    ¬ ((2 : Int) ^ (blockLevel k room + 1) ∣ k ∧ 2 ^ (blockLevel k room + 1) ≤ room) := by
  fun_induction blockLevel k room with
  | case1 k room h ih =>
    rintro ⟨⟨q, hq⟩, hfits⟩
    refine ih ⟨⟨q, ?_⟩, ?_⟩
    · rw [pow_succ, mul_right_comm] at hq
      omega
    · rw [pow_succ] at hfits
      omega
  | case2 k room h =>
    rintro ⟨hdvd, hfits⟩
    exact h ⟨Int.emod_eq_zero_of_dvd (by simpa using hdvd), by simpa using hfits⟩

/-- The largest block is as many levels up as the grid point is aligned and the block fits. -/
theorem le_blockLevel_iff (hroom : room ≠ 0) {n : Nat} :
    n ≤ blockLevel k room ↔ (2 : Int) ^ n ∣ k ∧ 2 ^ n ≤ room := by
  constructor
  · intro hn
    have hfits := blockSize_le k hroom
    rw [Nat.one_shiftLeft] at hfits
    exact ⟨(pow_dvd_pow 2 hn).trans (two_pow_blockLevel_dvd k room),
      (Nat.pow_le_pow_right (by omega) hn).trans hfits⟩
  · rintro ⟨hdvd, hfits⟩
    by_contra hlt
    refine not_double_block k room ⟨(pow_dvd_pow 2 (by omega)).trans hdvd, ?_⟩
    exact (Nat.pow_le_pow_right (by omega) (by omega)).trans hfits

/-- A left half that is a block is made at a grid point where its parent is aligned, too. -/
theorem two_pow_dvd_of_half (h : (k >>> blockLevel k room) % 2 = 0) :
    (2 : Int) ^ (blockLevel k room + 1) ∣ k := by
  obtain ⟨q, hq⟩ := Int.dvd_of_emod_eq_zero h
  have hk := shiftRight_blockLevel k room
  rw [hq] at hk
  refine ⟨q, hk.symm.trans ?_⟩
  ring

/-- A piece that starts where its parent does has a parent that reaches beyond the range. -/
theorem lt_upper_parent (hJ : J ∈ coverFrom k room resolution)
    (hstart : J.parent.lower = J.lower) : lower ⟨k + room, resolution⟩ < J.parent.upper := by
  fun_induction coverFrom k room resolution with
  | case1 => cases hJ
  | case2 k room hroom level ih =>
    have hsize : 1 <<< level ≤ room := blockSize_le k hroom
    rcases List.mem_cons.1 hJ with rfl | hJ
    · obtain ⟨hlower, hupper⟩ := range_block k room resolution
      have hdvd := two_pow_dvd_of_half ((half_eq_left_iff _).1 (half_of_lower_parent hstart))
      have hover : room < 2 ^ (level + 1) :=
        not_le.1 fun hfits => not_double_block k room ⟨hdvd, hfits⟩
      have hcast : (room : ℚ) < 2 ^ (level + 1) := by exact_mod_cast hover
      have hwide := mul_lt_mul_of_pos_right hcast (width_pos ⟨k, resolution⟩)
      -- The parent starts at `k` and is twice as wide as the block.
      rw [upper, hstart, width_parent, hlower, width_sub k, lower_add, ← mul_assoc, ← pow_succ']
      exact add_lt_add_right hwide _
    · have hend : k + (1 <<< level : Nat) + (room - 1 <<< level : Nat) = k + room := by
        rw [Nat.cast_sub hsize]
        ring
      rw [← hend]
      exact ih hJ

/-! ### Intervals of a range -/

/-- The interval lies in the range of grid points from `lo` up to `hi`, which is left out, and is no
finer than the grid. -/
structure Within (lo hi resolution : Int) (J : DyadicInterval) : Prop where
  power_le : J.power ≤ resolution
  subset : J.range ⊆ Set.Ico (lower ⟨lo, resolution⟩) (lower ⟨hi, resolution⟩)

theorem Within.between (h : Within lo hi resolution J) :
    lower ⟨lo, resolution⟩ ≤ J.lower ∧ J.upper ≤ lower ⟨hi, resolution⟩ :=
  (Set.Ico_subset_Ico_iff J.lower_lt_upper).1 h.subset

theorem within_of_mem_cover (hle : lo ≤ hi) (hJ : J ∈ cover lo hi resolution) :
    Within lo hi resolution J := by
  refine ⟨(offset_of_mem_cover hJ).1, ?_⟩
  obtain ⟨hlow, hhigh⟩ := (cover_tiles hle resolution).between hJ
  exact Set.Ico_subset_Ico hlow hhigh

/-- Everything in the range lies inside of a piece. -/
theorem exists_contains_of_within (hle : lo ≤ hi) (hK : Within lo hi resolution K) :
    ∃ J ∈ cover lo hi resolution, J.contains K = true := by
  obtain ⟨hlow, hhigh⟩ := hK.between
  have hnonempty := K.lower_lt_upper
  obtain ⟨J, hJ, hfrom, hto⟩ := (cover_tiles hle resolution).exists_mem_range hlow
    (hnonempty.trans_le hhigh)
  refine ⟨J, hJ, ?_⟩
  rcases nested_or_apart J K with hc | hc | happart
  · exact hc
  · by_contra hno
    have hne : J ≠ K := by
      rintro rfl
      exact hno (contains_self J)
    -- The parent of the piece lies in the range, too, and starts where the piece does.
    have hparent := contains_parent_of_ne hc hne
    obtain ⟨hstart, hend⟩ := contains_iff_range.1 hparent
    have hleft := (range_parent J).1
    have hover := lt_upper_parent hJ (le_antisymm hleft (hfrom.trans hstart))
    rw [add_toNat_sub hle] at hover
    exact not_lt.2 (hend.trans hhigh) hover
  · exact absurd ⟨hfrom, hto⟩ (Set.disjoint_right.1 happart.disjoint_range K.lower_mem_range)

/-- The pieces are the maximal intervals of the range. -/
theorem mem_cover_iff (hle : lo ≤ hi) :
    J ∈ cover lo hi resolution ↔
      Within lo hi resolution J ∧
        ∀ K : DyadicInterval, Within lo hi resolution K → K.contains J = true → K = J := by
  constructor
  · intro hJ
    refine ⟨within_of_mem_cover hle hJ, ?_⟩
    intro K hK hc
    obtain ⟨L, hL, hcL⟩ := exists_contains_of_within hle hK
    have hleft := contains_iff_range_subset.1 (contains_trans hcL hc) J.lower_mem_range
    obtain rfl := eq_of_mem_cover hJ hL J.lower_mem_range hleft
    exact (eq_of_contains_of_power_le hc (power_le_of_contains hcL)).symm
  · rintro ⟨hJ, hmax⟩
    obtain ⟨K, hK, hc⟩ := exists_contains_of_within hle hJ
    exact hmax K (within_of_mem_cover hle hK) hc ▸ hK

theorem cover_eq_nil_iff (hle : lo ≤ hi) : cover lo hi resolution = [] ↔ lo = hi := by
  constructor
  · intro hnil
    by_contra hne
    exact cover_ne_nil (lt_of_le_of_ne hle hne) resolution hnil
  · rintro rfl
    rw [cover, sub_self, Int.toNat_zero, coverFrom, if_pos rfl]

/-- No intervals that fill the range are fewer than the pieces: each lies inside of one piece, and
one of them has to hold the left end of each piece. -/
theorem length_cover_le (hle : lo ≤ hi) {others : List DyadicInterval}
    (hpower : ∀ K ∈ others, K.power ≤ resolution)
    (hfill : ⋃ K ∈ others, K.range =
      Set.Ico (lower ⟨lo, resolution⟩) (lower ⟨hi, resolution⟩)) :
    (cover lo hi resolution).length ≤ others.length := by
  have hwithin : ∀ K ∈ others, Within lo hi resolution K := by
    intro K hK
    exact ⟨hpower K hK, hfill ▸ Set.subset_biUnion_of_mem (u := range) hK⟩
  have hinside : ∀ J ∈ cover lo hi resolution, ∃ K ∈ others, J.contains K = true := by
    intro J hJ
    have hleft := (within_of_mem_cover hle hJ).subset J.lower_mem_range
    rw [← hfill] at hleft
    obtain ⟨K, hK, hmem⟩ := Set.mem_iUnion₂.1 hleft
    obtain ⟨L, hL, hc⟩ := exists_contains_of_within hle (hwithin K hK)
    obtain rfl :=
      eq_of_mem_cover hJ hL J.lower_mem_range (contains_iff_range_subset.1 hc hmem)
    exact ⟨K, hK, hc⟩
  choose! inside hmem hcontains using hinside
  have hnodup : ((cover lo hi resolution).map inside).Nodup := by
    refine List.Nodup.map_on ?_ (cover_nodup lo hi resolution)
    intro I hI J hJ heq
    have hfirst := contains_iff_range_subset.1 (hcontains I hI) (inside I).lower_mem_range
    have hsecond := contains_iff_range_subset.1 (hcontains J hJ) (inside J).lower_mem_range
    exact eq_of_mem_cover hI hJ hfirst (heq ▸ hsecond)
  have hlength : ((cover lo hi resolution).map inside).length = (cover lo hi resolution).length :=
    List.length_map inside
  rw [← hlength]
  refine (hnodup.subperm ?_).length_le
  intro K hK
  obtain ⟨J, hJ, rfl⟩ := List.mem_map.1 hK
  exact hmem J hJ

/-- The range of one interval, as a range of grid points. -/
theorem range_eq_gridRange (k : Int) (s : Nat) (resolution : Int) :
    range ⟨k, resolution - s⟩ =
      Set.Ico (lower ⟨k * 2 ^ s, resolution⟩) (lower ⟨(k + 1) * 2 ^ s, resolution⟩) := by
  have hwidth := width_sub k k resolution s
  have hsame : ∀ m : Int, width ⟨m, resolution⟩ = width ⟨k, resolution⟩ := fun _ => rfl
  rw [range, upper]
  simp only [lower, hwidth, hsame]
  push_cast
  congr 1 <;> ring

/-- A range that is the range of one interval is covered by that interval. -/
theorem cover_eq_singleton (k : Int) (s : Nat) (resolution : Int) :
    cover (k * 2 ^ s) ((k + 1) * 2 ^ s) resolution = [⟨k, resolution - s⟩] := by
  have hle : k * 2 ^ s ≤ (k + 1) * 2 ^ s :=
    mul_le_mul_of_nonneg_right (by omega) (by positivity)
  have hrange := range_eq_gridRange k s resolution
  have hself : Within (k * 2 ^ s) ((k + 1) * 2 ^ s) resolution ⟨k, resolution - s⟩ :=
    ⟨by simp only; omega, hrange.le⟩
  have hall : ∀ K : DyadicInterval, Within (k * 2 ^ s) ((k + 1) * 2 ^ s) resolution K →
      contains ⟨k, resolution - s⟩ K = true :=
    fun K hK => contains_iff_range_subset.2 (hrange ▸ hK.subset)
  refine List.perm_singleton.1 ((List.perm_ext_iff_of_nodup (cover_nodup _ _ _)
    (List.nodup_singleton _)).2 fun J => ?_)
  rw [List.mem_singleton, mem_cover_iff hle]
  constructor
  · rintro ⟨hJ, hmax⟩
    exact (hmax _ hself (hall J hJ)).symm
  · rintro rfl
    refine ⟨hself, fun K hK hc => ?_⟩
    exact eq_of_contains_of_power_le (hall K hK) (power_le_of_contains hc)

end Dissection

end SignatureCache
