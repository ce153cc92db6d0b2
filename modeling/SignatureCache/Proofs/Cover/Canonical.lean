import SignatureCache.Proofs.Cover.Maximal
import SignatureCache.Proofs.Cover.Words
import SignatureCache.Proofs.Number.Exact

/-!
# Dissections are canonical

Computed in words, the cover of a grid range is the list of its maximal dyadic intervals. Where the
range comes from a dyadic interval whose ends are taken as doubles, these ends are exact, or too
large or too fine for that: so the dissection gives the interval back, or it is refused.
-/

namespace SignatureCache

namespace Dissection

open DyadicInterval Binary64

variable {x : Float} {v : ℚ} {k lo hi resolution : Int} {s : Nat}

/-! ### Exact ends -/

theorem gridPoint_eq_error (h : floor? (x * twoPow resolution) = none) :
    ∃ reason, gridPoint x resolution = .error (.dissection reason) := by
  rw [gridPoint, h]
  exact ⟨_, rfl⟩

/-- A double that is a grid point is its own grid point. -/
theorem gridPoint_eq_of_reads (hx : Reads x v) (hv : v * 2 ^ resolution = k)
    (hlow : -1023 ≤ resolution) (hhigh : resolution < 1024) (hlo : -offsetLimit ≤ k)
    (hhi : k ≤ offsetLimit) : gridPoint x resolution = .ok k := by
  have hk : |k| < 2 ^ 53 := by
    rw [offsetLimit] at hlo hhi
    exact abs_lt.2 ⟨by omega, by omega⟩
  have hprod : Reads (x * twoPow resolution) (v * 2 ^ resolution) := by
    refine hx.mul (reads_twoPow hlow hhigh) ?_ ?_
    · exact hv ▸ representable_intCast hk
    · exact hv ▸ abs_intCast_lt hk
  rw [gridPoint, floor?_of_reads hprod, hv, Int.floor_intCast]
  exact if_pos ⟨hlo, hhi⟩

theorem abs_lt_of_range (hlo : -offsetLimit ≤ k * 2 ^ s) (hhi : k * 2 ^ s ≤ offsetLimit) :
    |k| < 2 ^ 53 := by
  have hscale : |k| ≤ |k * 2 ^ s| := by
    rw [abs_mul]
    refine le_mul_of_one_le_right (abs_nonneg k) ?_
    rw [abs_of_pos (by positivity)]
    exact one_le_pow₀ (by omega)
  have hlimit : |k * 2 ^ s| ≤ offsetLimit := abs_le.2 ⟨hlo, hhi⟩
  rw [offsetLimit] at hlimit
  omega

/-- An end of an interval `s` levels above the grid, computed as a double, has the grid point that
it should have, or none. It has one if neither the end nor the scale of the grid is too large. -/
theorem gridPoint_div_twoPow (hx : Reads x k) (hlo : -offsetLimit ≤ k * 2 ^ s)
    (hhi : k * 2 ^ s ≤ offsetLimit) (resolution : Int) :
    (gridPoint (x / twoPow (resolution - s)) resolution = .ok (k * 2 ^ s) ∨
      ∃ reason, gridPoint (x / twoPow (resolution - s)) resolution =
        .error (.dissection reason)) ∧
    (-971 ≤ resolution - s → resolution < 1024 →
      gridPoint (x / twoPow (resolution - s)) resolution = .ok (k * 2 ^ s)) := by
  have hk := abs_lt_of_range hlo hhi
  have hlost : NotFinite (x / twoPow (resolution - s)) →
      ∃ reason, gridPoint (x / twoPow (resolution - s)) resolution =
        .error (.dissection reason) :=
    fun h => gridPoint_eq_error (h.mul _).floor?_eq
  rcases le_or_gt 1024 resolution with hcoarse | hscale
  · refine ⟨.inr (gridPoint_eq_error (floor?_mul_twoPow hcoarse _)), ?_⟩
    intro _ hlt
    omega
  rcases lt_or_ge (resolution - s) (-1023) with hfine | hend
  · refine ⟨.inr (hlost (notFinite_div_twoPow hfine x)), ?_⟩
    intro hge _
    omega
  have hscaled : (k : ℚ) / 2 ^ (resolution - s) * 2 ^ resolution = (k * 2 ^ s : Int) := by
    rw [zpow_sub₀ two_ne_zero, zpow_natCast]
    push_cast
    field_simp
  have hkept : Reads (x / twoPow (resolution - s)) (k / 2 ^ (resolution - s)) →
      gridPoint (x / twoPow (resolution - s)) resolution = .ok (k * 2 ^ s) :=
    fun h => gridPoint_eq_of_reads h hscaled (by omega) hscale hlo hhi
  have hpower := reads_twoPow hend (show resolution - s < 1024 by omega)
  have hne : (2 : ℚ) ^ (resolution - s) ≠ 0 := by positivity
  have hrep : Representable (k / 2 ^ (resolution - s)) := by
    refine ⟨k, -(resolution - s), ?_, hk, ?_⟩
    · rw [zpow_neg, div_eq_mul_inv]
    · rw [leastExponent]
      omega
  refine ⟨(hx.div_or hpower hne hrep).imp hkept hlost, fun hge _ => hkept ?_⟩
  have hcast : |(k : ℚ)| < 2 ^ 53 := by exact_mod_cast hk
  have hsmall : (2 : ℚ) ^ (-(resolution - s)) ≤ 2 ^ 971 := by
    rw [← zpow_natCast]
    exact zpow_le_zpow_right₀ one_le_two (by omega)
  refine hx.div hpower hne hrep ?_
  calc |(k : ℚ) / 2 ^ (resolution - s)| = |(k : ℚ)| * 2 ^ (-(resolution - s)) := by
        rw [div_eq_mul_inv, ← zpow_neg, abs_mul, abs_zpow, abs_two]
    _ < 2 ^ 53 * 2 ^ 971 := mul_lt_mul hcast hsmall (by positivity) (by positivity)
    _ = 2 ^ 1024 := (pow_add 2 53 971).symm

/-! ### The way through doubles -/

/-- A dyadic interval whose ends are grid points is given back by its dissection, or refused. -/
theorem onGrid_ofDyadic (hlo : -offsetLimit ≤ k * 2 ^ s) (hhi : (k + 1) * 2 ^ s ≤ offsetLimit) :
    (onGrid (.ofDyadic ⟨k, resolution - s⟩) resolution = .ok [⟨k, resolution - s⟩] ∨
      ∃ reason, onGrid (.ofDyadic ⟨k, resolution - s⟩) resolution =
        .error (.dissection reason)) ∧
    (-971 ≤ resolution - s → resolution < 1024 →
      onGrid (.ofDyadic ⟨k, resolution - s⟩) resolution = .ok [⟨k, resolution - s⟩]) := by
  have hstep : k * 2 ^ s ≤ (k + 1) * 2 ^ s :=
    mul_le_mul_of_nonneg_right (by omega) (by positivity)
  have hk := abs_lt_of_range hlo (hstep.trans hhi)
  have hnext := abs_lt_of_range (hlo.trans hstep) hhi
  have hstart : Reads (Float.ofInt k) k := reads_ofInt hk
  have hsum : (k : ℚ) + 1 = (k + 1 : Int) := by
    rw [Int.cast_add, Int.cast_one]
  have hstop : Reads (Float.ofInt k + 1.0) (k + 1 : Int) := by
    rw [← hsum]
    refine hstart.add reads_one ?_ ?_
    · exact hsum ▸ representable_intCast hnext
    · exact hsum ▸ abs_intCast_lt hnext
  obtain ⟨hlower, hlower'⟩ := gridPoint_div_twoPow hstart hlo (hstep.trans hhi) resolution
  obtain ⟨hupper, hupper'⟩ := gridPoint_div_twoPow hstop (hlo.trans hstep) hhi resolution
  have hwhole : gridPoint (Float.ofInt k / twoPow (resolution - s)) resolution = .ok (k * 2 ^ s) →
      gridPoint ((Float.ofInt k + 1.0) / twoPow (resolution - s)) resolution =
        .ok ((k + 1) * 2 ^ s) →
      onGrid (.ofDyadic ⟨k, resolution - s⟩) resolution = .ok [⟨k, resolution - s⟩] := by
    intro hfrom hto
    rw [← cover_eq_singleton]
    exact onGrid_eq hfrom hto
  refine ⟨?_, fun hsize hscale => hwhole (hlower' hsize hscale) (hupper' hsize hscale)⟩
  rcases onGrid_cases (.ofDyadic ⟨k, resolution - s⟩) resolution with
    hrefused | ⟨lo, hi, hfrom, hto, -⟩
  · exact .inr hrefused
  · left
    refine hwhole (hlower.resolve_right ?_) (hupper.resolve_right ?_)
    · rintro ⟨reason, hrefused⟩
      cases hrefused.symm.trans hfrom
    · rintro ⟨reason, hrefused⟩
      cases hrefused.symm.trans hto

/-! ### The canonical cover -/

/-- Between grid points, the loops over words come to their end without leaving their words and give
the maximal dyadic intervals of the range, end to end from the one grid point to the other. Every
interval of the range lies inside of one of them, no cover of the range has fewer members, and a
range that is one interval is covered by it: so a dissection gives an interval with ends on the grid
back, unless it is refused because its ends are no doubles. -/
theorem cover_canonical (hlo : -offsetLimit ≤ lo) (hle : lo ≤ hi) (hhi : hi ≤ offsetLimit)
    (hlow : lowestPower ≤ resolution) (hhigh : resolution ≤ 0x7fffffff) :
    coverInWords? lo hi resolution = .ok (cover lo hi resolution) ∧
    (∀ I : RealInterval, gridPoint I.start resolution = .ok lo →
      gridPoint I.stop resolution = .ok hi → onGrid I resolution = .ok (cover lo hi resolution)) ∧
    Tiles (lo * 2 ^ (-resolution)) (cover lo hi resolution) (hi * 2 ^ (-resolution)) ∧
    (∀ J : DyadicInterval, J ∈ cover lo hi resolution ↔ Within lo hi resolution J ∧
      ∀ K : DyadicInterval, Within lo hi resolution K → K.contains J = true → K = J) ∧
    (∀ K : DyadicInterval, Within lo hi resolution K →
      ∃ J ∈ cover lo hi resolution, J.contains K = true) ∧
    (cover lo hi resolution = [] ↔ lo = hi) ∧
    (∀ others : List DyadicInterval, (∀ K ∈ others, K.power ≤ resolution) →
      ⋃ K ∈ others, K.range = Set.Ico (lo * 2 ^ (-resolution) : ℚ) (hi * 2 ^ (-resolution)) →
      (cover lo hi resolution).length ≤ others.length) ∧
    ∀ (k : Int) (s : Nat), lo = k * 2 ^ s → hi = (k + 1) * 2 ^ s →
      cover lo hi resolution = [⟨k, resolution - s⟩] ∧
      (onGrid (.ofDyadic ⟨k, resolution - s⟩) resolution = .ok [⟨k, resolution - s⟩] ∨
        ∃ reason, onGrid (.ofDyadic ⟨k, resolution - s⟩) resolution =
          .error (.dissection reason)) ∧
      (-971 ≤ resolution - s → resolution < 1024 →
        onGrid (.ofDyadic ⟨k, resolution - s⟩) resolution = .ok [⟨k, resolution - s⟩]) := by
  refine ⟨coverInWords?_eq hlo hle hhi hlow hhigh, fun _ => onGrid_eq, cover_tiles hle resolution,
    fun _ => mem_cover_iff hle, fun _ => exists_contains_of_within hle, cover_eq_nil_iff hle,
    fun _ => length_cover_le hle, ?_⟩
  rintro k s rfl rfl
  exact ⟨cover_eq_singleton k s resolution, onGrid_ofDyadic hlo hhi⟩

/-- From `-6/8` to `5/8` blocks grow up to zero and shrink from there on, and three intervals are
not enough. The range from `-4/8` to zero is one interval. -/
theorem cover_canonical_across_zero :
    coverInWords? (-6) 5 3 = .ok [⟨-3, 2⟩, ⟨-1, 1⟩, ⟨0, 1⟩, ⟨4, 3⟩] ∧
      (∀ others : List DyadicInterval, (∀ K ∈ others, K.power ≤ 3) →
        ⋃ K ∈ others, K.range =
          Set.Ico (((-6 : Int) : ℚ) * 2 ^ (-3 : Int)) (((5 : Int) : ℚ) * 2 ^ (-3 : Int)) →
        4 ≤ others.length) ∧
      cover (-4) 0 3 = [⟨-1, 1⟩] ∧ onGrid (.ofDyadic ⟨-1, 1⟩) 3 = .ok [⟨-1, 1⟩] := by
  have hcover : cover (-6) 5 3 = [⟨-3, 2⟩, ⟨-1, 1⟩, ⟨0, 1⟩, ⟨4, 3⟩] := by
    cbv
  have hlow : lowestPower ≤ 3 := by decide
  have hhigh : (3 : Int) ≤ 0x7fffffff := by decide
  have hwide : (-6 : Int) ≤ 5 := by decide
  have hblock : (-4 : Int) ≤ 0 := by decide
  obtain ⟨hwords, -, -, -, -, -, hfewest, -⟩ :=
    cover_canonical (by decide) hwide (by decide) hlow hhigh
  obtain ⟨-, -, -, -, -, -, -, hsingle⟩ :=
    cover_canonical (by decide) hblock (by decide) hlow hhigh
  obtain ⟨hpiece, -, hback⟩ := hsingle (-1) 2 (by decide) (by decide)
  rw [hcover] at hwords hfewest
  exact ⟨hwords, hfewest, hpiece, hback (by decide) (by decide)⟩

end Dissection

end SignatureCache
