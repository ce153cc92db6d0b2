import SignatureCache.RealInterval

/-!
# Dissection into dyadic intervals

A real interval is rounded down to the grid of multiples of `2^-resolution` and the grid range is
covered from left to right, each time by the largest dyadic interval that starts at the point
reached, is aligned there and still fits. `cover` does this on the integers that count grid points.
-/

namespace SignatureCache

/-- A way to cut a real interval into dyadic pieces, in order, at a resolution. -/
abbrev Dissection := RealInterval → Int → Except Error (List DyadicInterval)

namespace Dissection

/-- Offsets of grid points and of cached intervals are at most `2^52` in magnitude, where doubles
still tell neighbours apart. -/
def offsetLimit : Int := 0x10000000000000

/-- The greatest grid point not above a double. -/
def gridPoint (x : Float) (resolution : Int) : Except Error Int :=
  match Binary64.floor? (x * Binary64.twoPow resolution) with
  | some k =>
    if -offsetLimit ≤ k ∧ k ≤ offsetLimit then .ok k
    else .error (.dissection (refusal x resolution))
  | none => .error (.dissection (refusal x resolution))
where
  refusal (x : Float) (resolution : Int) : String :=
    s!"endpoint {Decimal.text x} not representable at resolution {resolution}"

/-- The level of the largest block that starts at `k` and spans at most `room` grid points: a block
can be doubled while its start is even in blocks and two blocks fit. -/
def blockLevel (k : Int) (room : Nat) : Nat :=
  if k % 2 = 0 ∧ 2 ≤ room then blockLevel (k / 2) (room / 2) + 1 else 0
termination_by room

theorem blockSize_le (k : Int) {room : Nat} (h : room ≠ 0) :
    1 <<< blockLevel k room ≤ room := by
  fun_induction blockLevel k room with
  | case1 k room hk ih =>
    have := ih (by omega)
    rw [Nat.one_shiftLeft] at this ⊢
    rw [Nat.pow_succ]
    omega
  | case2 =>
    rw [Nat.shiftLeft_zero]
    omega

/-- Covers `room` grid points from `k` on by the largest blocks, from left to right. -/
def coverFrom (k : Int) (room : Nat) (resolution : Int) : List DyadicInterval :=
  if room = 0 then []
  else
    let level := blockLevel k room
    ⟨k >>> level, resolution - level⟩ ::
      coverFrom (k + 1 <<< level) (room - 1 <<< level) resolution
termination_by room
decreasing_by
  have := blockSize_le k ‹_›
  have := Nat.two_pow_pos (blockLevel k room)
  rw [Nat.one_shiftLeft] at *
  omega

/-- Covers the grid points from `lo` up to `hi`, which is left out. -/
def cover (lo hi resolution : Int) : List DyadicInterval :=
  coverFrom lo (hi - lo).toNat resolution

/-- The dissection on the grid of the resolution. -/
def onGrid : Dissection := fun I resolution => do
  let lo ← gridPoint I.start resolution
  let hi ← gridPoint I.stop resolution
  return cover lo hi resolution

end Dissection

end SignatureCache
