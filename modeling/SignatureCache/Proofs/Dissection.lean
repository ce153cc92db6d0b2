import Mathlib.Tactic.Ring
import SignatureCache.Dissection
import SignatureCache.Proofs.DyadicInterval.Tiling
import SignatureCache.Proofs.Number.Binary64

/-!
# Products over a dissection

The pieces of a grid range are blocks of grid cells, in order, so no two of them meet. Where the
value of every interval is the product of the values of its halves, the value of a block is the
product over its cells, so the product over the pieces is the product over all cells of the range.
-/

namespace SignatureCache

namespace Dissection

open DyadicInterval

/-- The `room` cells of the grid from `k` on. -/
def cells (k : Int) (room : Nat) (resolution : Int) : List DyadicInterval :=
  (List.range room).map fun n : Nat => ⟨k + n, resolution⟩

theorem cells_add (k : Int) (m n : Nat) (resolution : Int) :
    cells k (m + n) resolution = cells k m resolution ++ cells (k + m) n resolution := by
  rw [cells, List.range_add, List.map_append, List.map_map]
  congr 1
  apply List.map_congr_left
  intro i _
  ext
  · change k + ((m + i : Nat) : Int) = k + m + i
    push_cast
    ring
  · rfl

/-- A block starts at a multiple of its size. -/
theorem two_pow_blockLevel_dvd (k : Int) (room : Nat) : (2 : Int) ^ blockLevel k room ∣ k := by
  fun_induction blockLevel k room with
  | case1 k room h ih =>
    obtain ⟨q, hq⟩ := ih
    refine ⟨q, ?_⟩
    rw [pow_succ, mul_right_comm, ← hq]
    omega
  | case2 => simp

/-- A block and its offset: it starts at the grid point that it is made for. -/
theorem shiftRight_blockLevel (k : Int) (room : Nat) :
    k >>> blockLevel k room * 2 ^ blockLevel k room = k := by
  rw [Int.shiftRight_eq_div_pow]
  exact_mod_cast Int.ediv_mul_cancel (two_pow_blockLevel_dvd k room)

/-- A block starts where its first cell does and ends where the cell after its last one starts. -/
theorem range_block (k : Int) (room : Nat) (resolution : Int) :
    let block : DyadicInterval := ⟨k >>> blockLevel k room, resolution - blockLevel k room⟩
    let next : DyadicInterval := ⟨k + 1 <<< blockLevel k room, resolution⟩
    block.lower = lower ⟨k, resolution⟩ ∧ block.upper = next.lower := by
  intro block next
  have hwidth : block.width = 2 ^ blockLevel k room * width ⟨k, resolution⟩ :=
    width_sub k _ resolution _
  have hlower : block.lower = lower ⟨k, resolution⟩ := by
    have hoffset : ((k >>> blockLevel k room : Int) : ℚ) * 2 ^ blockLevel k room = k := by
      exact_mod_cast shiftRight_blockLevel k room
    rw [lower, hwidth, ← mul_assoc, hoffset, lower]
  have hnext : next.lower = (k + (2 ^ blockLevel k room : Nat) : Int) * width ⟨k, resolution⟩ := by
    rw [← Nat.one_shiftLeft]
    rfl
  refine ⟨hlower, ?_⟩
  rw [upper, hlower, hwidth, hnext, lower]
  push_cast
  ring

/-- The pieces of a grid range lie end to end from its start to its end. -/
theorem coverFrom_tiles (k : Int) (room : Nat) (resolution : Int) :
    Tiles (lower ⟨k, resolution⟩) (coverFrom k room resolution) (lower ⟨k + room, resolution⟩) := by
  fun_induction coverFrom k room resolution with
  | case1 => simp [Tiles]
  | case2 k room hroom level ih =>
    have hsize : 1 <<< level ≤ room := blockSize_le k hroom
    have hend : k + (1 <<< level : Nat) + (room - 1 <<< level : Nat) = k + room := by
      rw [Nat.cast_sub hsize]
      ring
    obtain ⟨hlower, hupper⟩ := range_block k room resolution
    rw [hend] at ih
    exact ⟨hlower, hupper ▸ ih⟩

theorem coverFrom_apart (k : Int) (room : Nat) (resolution : Int) :
    (coverFrom k room resolution).Pairwise Apart :=
  (coverFrom_tiles k room resolution).pairwise_apart

section Product

variable {V : Type} {f : DyadicInterval → V} {mul : V → V → V}

/-- The cells `n` levels below an interval multiply to its value. -/
theorem foldl_cells_below (assoc : ∀ a b c, mul (mul a b) c = mul a (mul b c))
    (halves : ∀ I : DyadicInterval, mul (f I.left) (f I.right) = f I) (I : DyadicInterval) (n : Nat)
    (x : V) :
    ((cells (I.offset * 2 ^ n) (2 ^ n) (I.power + n)).map f).foldl mul x = mul x (f I) := by
  induction n generalizing I x with
  | zero => simp [cells]
  | succ n ih =>
    have hl := ih I.left
    have hr := ih I.right
    have hleft : I.left.offset * 2 ^ n = I.offset * 2 ^ (n + 1) := by
      rw [left_offset]
      ring
    have hright : I.right.offset * 2 ^ n = I.offset * 2 ^ (n + 1) + (2 ^ n : Nat) := by
      rw [right_offset]
      push_cast
      ring
    have hpower : I.power + 1 + (n : Int) = I.power + ((n + 1 : Nat) : Int) := by
      push_cast
      ring
    rw [hleft, left_power, hpower] at hl
    rw [hright, right_power, hpower] at hr
    rw [show 2 ^ (n + 1) = 2 ^ n + 2 ^ n by ring, cells_add, List.map_append, List.foldl_append, hl,
      hr, assoc, halves]

/-- The product of the members of a list in their order. -/
def orderedProduct (mul : V → V → V) (zero : V) : List V → V
  | [] => zero
  | value :: values => values.foldl mul value

theorem foldl_eq_orderedProduct {zero : V} (zero_mul : ∀ a, mul zero a = a) (values : List V) :
    values.foldl mul zero = orderedProduct mul zero values := by
  cases values with
  | nil => rfl
  | cons value values => rw [List.foldl_cons, zero_mul, orderedProduct]

/-- The pieces of a grid range multiply to the product over its cells. -/
theorem foldl_coverFrom (assoc : ∀ a b c, mul (mul a b) c = mul a (mul b c))
    (halves : ∀ I : DyadicInterval, mul (f I.left) (f I.right) = f I) (k : Int) (room : Nat)
    (resolution : Int) (x : V) :
    ((coverFrom k room resolution).map f).foldl mul x =
      ((cells k room resolution).map f).foldl mul x := by
  fun_induction coverFrom k room resolution generalizing x with
  | case1 => simp [cells]
  | case2 k room hroom level ih =>
    have hle : 1 <<< level ≤ room := blockSize_le k hroom
    have hoffset : k >>> level * 2 ^ level = k := shiftRight_blockLevel k room
    have hsize : 1 <<< level = 2 ^ level := Nat.one_shiftLeft level
    have hblock := foldl_cells_below assoc halves ⟨k >>> level, resolution - level⟩ level x
    have hcells : cells k room resolution =
        cells k (2 ^ level) resolution ++
          cells (k + ((2 ^ level : Nat) : Int)) (room - 2 ^ level) resolution := by
      rw [← cells_add, Nat.add_sub_cancel' (hsize ▸ hle)]
    rw [hoffset, sub_add_cancel] at hblock
    rw [List.map_cons, List.foldl_cons, ih, hcells, List.map_append, List.foldl_append, hblock,
      hsize]

end Product

/-! ### Grid points -/

variable {I : RealInterval} {resolution lo hi : Int}

theorem floor?_of_gridPoint {x : Float} {k : Int} (h : gridPoint x resolution = .ok k) :
    Binary64.floor? (x * Binary64.twoPow resolution) = some k := by
  unfold gridPoint at h
  split at h
  · next k' hk =>
    split at h
    · cases h
      exact hk
    · cases h
  · cases h

/-- An interval without points, whose ends are in order, starts and ends at one grid point. -/
theorem gridPoint_eq_of_isEmpty (hempty : I.isEmpty = true) (hle : ¬ I.stop < I.start)
    (hlo : gridPoint I.start resolution = .ok lo) (hhi : gridPoint I.stop resolution = .ok hi) :
    hi = lo := by
  have h := Binary64.floor?_mul_eq (of_decide_eq_true hempty) hle (Binary64.twoPow resolution)
  rw [floor?_of_gridPoint hlo, floor?_of_gridPoint hhi] at h
  exact Option.some.inj h

theorem onGrid_eq (hlo : gridPoint I.start resolution = .ok lo)
    (hhi : gridPoint I.stop resolution = .ok hi) :
    onGrid I resolution = .ok (cover lo hi resolution) := by
  rw [onGrid, hlo, hhi]
  rfl

end Dissection

end SignatureCache
