import SignatureCache.Proofs.Cache.Range
import SignatureCache.Proofs.Dissection

/-!
# The cover of a grid range

The pieces that cover a range of grid points contain no grid point outside of it. So a cache accepts
every piece of a dissection: the limit that grid points keep to is the one that offsets keep to. No
piece straddles zero, where the cover of a range that does can be cut in two. Resolutions at which a
range has grid points at all are far below the greatest word.
-/

namespace SignatureCache

namespace Dissection

open DyadicInterval

variable {k : Int} {room : Nat} {resolution lo hi limit : Int} {I : RealInterval}
  {J K : DyadicInterval}

/-! ### Blocks -/

/-- A piece is no finer than the grid, and the grid intervals under it are in the range. -/
theorem offset_of_mem_coverFrom (hJ : J ∈ coverFrom k room resolution) :
    J.power ≤ resolution ∧ ∀ K : DyadicInterval, J.contains K = true → K.power = resolution →
      k ≤ K.offset ∧ K.offset < k + room := by
  fun_induction coverFrom k room resolution with
  | case1 => cases hJ
  | case2 k room hroom level ih =>
    have hsize : 1 <<< level ≤ room := blockSize_le k hroom
    rw [List.mem_cons] at hJ
    rcases hJ with rfl | hJ
    · refine ⟨by simp only; omega, ?_⟩
      intro K hc hp
      obtain ⟨-, hoffset⟩ := (contains_iff _ _).1 hc
      have hlevels : (K.power - (resolution - level)).toNat = level := by omega
      have hstart : k >>> level * 2 ^ level = k := shiftRight_blockLevel k room
      simp only [hlevels] at hoffset
      have hlow : ¬ K.offset < k := by
        rw [← hstart, ← Int.shiftLeft_eq, ← floor_lt_iff]
        omega
      have hhigh : K.offset < (k >>> level + 1) * 2 ^ level := by
        rw [← Int.shiftLeft_eq, ← floor_lt_iff]
        omega
      rw [add_mul, hstart, one_mul] at hhigh
      rw [Nat.one_shiftLeft] at hsize
      have hcast : ((2 ^ level : Nat) : Int) ≤ room := by exact_mod_cast hsize
      push_cast at hcast
      omega
    · obtain ⟨hp, hunder⟩ := ih hJ
      refine ⟨hp, ?_⟩
      intro K hc hpK
      obtain ⟨hlow, hhigh⟩ := hunder K hc hpK
      rw [Nat.cast_sub hsize] at hhigh
      have hpos : (0 : Int) ≤ (1 <<< level : Nat) := Int.natCast_nonneg _
      exact ⟨by linarith, by linarith⟩

theorem coverFrom_eq_cons (h : room ≠ 0) :
    coverFrom k room resolution =
      ⟨k >>> blockLevel k room, resolution - blockLevel k room⟩ ::
        coverFrom (k + (1 <<< blockLevel k room : Nat)) (room - 1 <<< blockLevel k room)
          resolution := by
  rw [coverFrom, if_neg h]

/-- From a negative grid point the largest block is the same whatever lies beyond zero. -/
theorem blockLevel_of_neg (hk : k < 0) (hroom : -k ≤ room) :
    blockLevel k room = blockLevel k (-k).toNat := by
  fun_induction blockLevel k room with
  | case1 k room heven ih =>
    have hhalf : (-(k / 2)).toNat = (-k).toNat / 2 := by omega
    rw [ih (by omega) (by omega), hhalf]
    conv_rhs => rw [blockLevel, if_pos (by omega)]
  | case2 k room hodd =>
    conv_rhs => rw [blockLevel, if_neg (by omega)]

/-- The cover of a range that starts below zero and goes beyond it is cut at zero. -/
theorem coverFrom_neg (m n : Nat) (resolution : Int) :
    coverFrom (-m) (m + n) resolution =
      coverFrom (-m) m resolution ++ coverFrom 0 n resolution := by
  induction m using Nat.strong_induction_on with
  | _ m ih =>
    by_cases hm : m = 0
    · subst hm
      conv_rhs => rw [coverFrom, if_pos rfl]
      rw [List.nil_append, Nat.zero_add, Int.natCast_zero, neg_zero]
    · have hlevel : blockLevel (-m) (m + n) = blockLevel (-m) m := by
        rw [blockLevel_of_neg (by omega) (by omega)]
        congr 1
        omega
      have hle := blockSize_le (-m) hm
      have hpos : 0 < 1 <<< blockLevel (-m) m := by
        rw [Nat.one_shiftLeft]
        exact Nat.two_pow_pos _
      have hstart : (-m : Int) + (1 <<< blockLevel (-m) m : Nat) =
          -(m - 1 <<< blockLevel (-m) m : Nat) := by
        rw [Nat.cast_sub hle]
        ring
      have hroom : m + n - 1 <<< blockLevel (-m) m = m - 1 <<< blockLevel (-m) m + n := by
        rw [Nat.sub_add_comm hle]
      rw [coverFrom_eq_cons (by omega), hlevel, hstart, hroom, ih _ (by omega),
        coverFrom_eq_cons (k := -m) hm, hstart, List.cons_append]

/-! ### Pieces -/

/-- A piece is no finer than the grid, and what lies under it on the grid is in the range. -/
theorem offset_of_mem_cover (hJ : J ∈ cover lo hi resolution) :
    J.power ≤ resolution ∧ ∀ K : DyadicInterval, J.contains K = true → K.power = resolution →
      lo ≤ K.offset ∧ K.offset < hi := by
  obtain ⟨hp, hunder⟩ := offset_of_mem_coverFrom hJ
  refine ⟨hp, fun K hc hpK => ?_⟩
  have hrange := hunder K hc hpK
  omega

/-- A piece lies below zero, or not, as the grid point that it starts at does. -/
theorem exists_offset_of_mem_cover (hJ : J ∈ cover lo hi resolution) :
    ∃ k, lo ≤ k ∧ k < hi ∧ (J.offset < 0 ↔ k < 0) := by
  obtain ⟨hp, hunder⟩ := offset_of_mem_cover hJ
  obtain ⟨K, hc, hpK⟩ := exists_contains_of_power_le hp
  obtain ⟨hlow, hhigh⟩ := hunder K hc hpK
  exact ⟨K.offset, hlow, hhigh, sameSide_of_contains hc⟩

theorem levels_le_of_offsetsFit {I : DyadicInterval} (h : offsetsFit I resolution = true) :
    max resolution I.power - I.power ≤ 52 := by
  by_contra hdeep
  have hrefused : offsetsFit I resolution = false := if_pos (not_le.1 hdeep)
  cases h.symm.trans hrefused

section Range

variable (hlo : -offsetLimit ≤ lo) (hhi : hi ≤ offsetLimit)

include hlo hhi

/-- Each piece passes the checks of a cache at the resolution of the grid if the resolution does. -/
theorem allowInterval_of_mem_cover {policy : Policy} (hlimit : resolution ≤ policy.maxResolution)
    (hJ : J ∈ cover lo hi resolution) : policy.allowInterval J resolution = .ok () := by
  obtain ⟨hp, hunder⟩ := offset_of_mem_cover hJ
  apply allowInterval_of_inRange
  intro K hc hpK
  rw [max_eq_left hp] at hpK
  obtain ⟨hlow, hhigh⟩ := hunder K hc hpK
  exact ⟨hlo.trans hlow, hhigh.trans_le hhi, hpK.trans_le hlimit⟩

/-- The interval that contains all pieces on one side of zero is no coarser than a word allows. -/
theorem hemisphere_contains_of_mem_cover (hlow : lowestPower ≤ resolution)
    (hJ : J ∈ cover lo hi resolution) : (hemisphere J).contains J = true := by
  obtain ⟨hp, hunder⟩ := offset_of_mem_cover hJ
  obtain ⟨K, hc, hpK⟩ := exists_contains_of_power_le hp
  obtain ⟨hge, hlt⟩ := hunder K hc hpK
  have hK : InRange resolution K := ⟨hlo.trans hge, hlt.trans_le hhi, hpK.le⟩
  have hhalf : (hemisphere J).contains K = true := by
    rw [hemisphere_eq_of_sameSide (sameSide_of_contains hc)]
    exact hK.hemisphere_contains (hpK ▸ hlow)
  have hallow : ({ maxResolution := resolution } : Policy).allowInterval J resolution = .ok () :=
    allowInterval_of_mem_cover hlo hhi le_rfl hJ
  have hlevels := levels_le_of_offsetsFit (allowInterval_eq_ok_iff.1 hallow).2.2
  have hpower : (hemisphere J).power = lowestPower - 52 := rfl
  -- Both contain one grid interval, and a piece is at most 52 levels above it.
  rcases contains_or_contains hhalf hc with hcon | hcon
  · exact hcon
  · have heq : hemisphere J = J := eq_of_contains_of_power_le hcon (by omega)
    rw [heq]
    exact contains_self J

end Range

/-- The cover of a range that zero lies in is cut at zero. -/
theorem cover_neg (hlo : lo ≤ 0) (hhi : 0 ≤ hi) (resolution : Int) :
    cover lo hi resolution = cover lo 0 resolution ++ cover 0 hi resolution := by
  obtain ⟨m, rfl⟩ : ∃ m : Nat, lo = -m := ⟨(-lo).toNat, by omega⟩
  obtain ⟨n, rfl⟩ : ∃ n : Nat, hi = n := ⟨hi.toNat, by omega⟩
  have hcut := coverFrom_neg m n resolution
  rw [cover, cover, cover]
  have hall : ((n : Int) - -(m : Int)).toNat = m + n := by omega
  have hleft : ((0 : Int) - -(m : Int)).toNat = m := by omega
  have hright : ((n : Int) - 0).toNat = n := by omega
  rw [hall, hleft, hright, hcut]

theorem cover_ne_nil (h : lo < hi) (resolution : Int) : cover lo hi resolution ≠ [] := by
  rw [cover, coverFrom_eq_cons (by omega)]
  exact List.cons_ne_nil _ _

/-- A range from zero on begins with a piece that starts at zero. -/
theorem cover_zero (hhi : 0 < hi) (resolution : Int) :
    ∃ zero rest, cover 0 hi resolution = zero :: rest ∧ zero.offset = 0 := by
  refine ⟨_, _, coverFrom_eq_cons (by omega), ?_⟩
  exact Int.zero_shiftRight _

/-! ### Grid points -/

/-- Grid points are in range, and there are none at resolutions that no double can be scaled to. -/
theorem range_of_gridPoint {x : Float} (h : gridPoint x resolution = .ok k) :
    -offsetLimit ≤ k ∧ k ≤ offsetLimit ∧ resolution < 1024 := by
  have hfloor := floor?_of_gridPoint h
  have hlow : resolution < 1024 := by
    by_contra hhigh
    rw [Binary64.floor?_mul_twoPow (not_lt.1 hhigh)] at hfloor
    cases hfloor
  unfold gridPoint at h
  split at h
  · split at h
    · next hrange =>
      cases h
      exact ⟨hrange.1, hrange.2, hlow⟩
    · cases h
  · cases h

/-- The dissection on the grid only fails because an end has no grid point. -/
theorem onGrid_cases (I : RealInterval) (resolution : Int) :
    (∃ reason, onGrid I resolution = .error (.dissection reason)) ∨
      ∃ lo hi, gridPoint I.start resolution = .ok lo ∧ gridPoint I.stop resolution = .ok hi ∧
        onGrid I resolution = .ok (cover lo hi resolution) := by
  have hpoint : ∀ {x : Float} {error : Error}, gridPoint x resolution = .error error →
      ∃ reason, error = .dissection reason := by
    intro x error hx
    unfold gridPoint at hx
    split at hx
    · split at hx
      · cases hx
      · cases hx
        exact ⟨_, rfl⟩
    · cases hx
      exact ⟨_, rfl⟩
  cases hlo : gridPoint I.start resolution with
  | error error =>
    obtain ⟨reason, rfl⟩ := hpoint hlo
    left
    rw [onGrid, hlo]
    exact ⟨reason, rfl⟩
  | ok lo =>
    cases hhi : gridPoint I.stop resolution with
    | error error =>
      obtain ⟨reason, rfl⟩ := hpoint hhi
      left
      rw [onGrid, hlo, hhi]
      exact ⟨reason, rfl⟩
    | ok hi => exact .inr ⟨lo, hi, rfl, rfl, onGrid_eq hlo hhi⟩

end Dissection

end SignatureCache
