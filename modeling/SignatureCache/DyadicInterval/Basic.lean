/-!
# Dyadic intervals

`⟨offset, power⟩` stands for `[offset · 2^-power, (offset + 1) · 2^-power)`. Offsets and powers are
unbounded integers here, so every operation of this file is exact. The two halves of an interval
have twice its offset and one more power; halving the offset, rounded down, gives the interval it
is a half of. Containment and the steps between ends only ever shift right, so no operation builds
a number larger than the offsets it is given, however far apart the powers are.
-/

namespace SignatureCache

/-- The two halves an interval is cut into. -/
inductive Half where
  | left
  | right
deriving DecidableEq, Inhabited

/-- The interval `[offset · 2^-power, (offset + 1) · 2^-power)`. -/
structure DyadicInterval where
  offset : Int
  power : Int
deriving DecidableEq, Inhabited

namespace DyadicInterval

/-- The left half. -/
def left (I : DyadicInterval) : DyadicInterval :=
  ⟨2 * I.offset, I.power + 1⟩

/-- The right half. -/
def right (I : DyadicInterval) : DyadicInterval :=
  ⟨2 * I.offset + 1, I.power + 1⟩

/-- The interval that `I` is a half of. -/
def parent (I : DyadicInterval) : DyadicInterval :=
  ⟨I.offset / 2, I.power - 1⟩

/-- Which half of its parent `I` is: intervals with an even offset are left halves. -/
def half (I : DyadicInterval) : Half :=
  if I.offset % 2 = 0 then .left else .right

/-- The other half of the parent. -/
def sibling (I : DyadicInterval) : DyadicInterval :=
  match I.half with
  | .left => ⟨I.offset + 1, I.power⟩
  | .right => ⟨I.offset - 1, I.power⟩

/-- The interval `n` levels above `I`. -/
def ancestor (I : DyadicInterval) (n : Nat) : DyadicInterval :=
  ⟨I.offset >>> n, I.power - n⟩

/-- Whether every point of `J` lies in `I`: the ancestor of `J` at the level of `I` is `I`. -/
def contains (I J : DyadicInterval) : Bool :=
  decide (I.power ≤ J.power) && decide (J.offset >>> (J.power - I.power).toNat = I.offset)

/-- Grows `I` at its right end while it is a left half and still finer than `floor`. An interval
that starts at zero is a left half at every level, so it grows to `floor` in one step. -/
def coarsen (floor : Int) (I : DyadicInterval) : DyadicInterval :=
  if I.power ≤ floor then I
  else if I.offset = 0 then ⟨0, floor⟩
  else if I.offset % 2 = 0 then coarsen floor I.parent
  else I
termination_by I.offset.natAbs
decreasing_by simp only [parent]; omega

/-- The coarsest interval that starts where `I` ends and is no coarser than `floor`; an interval
already coarser than `floor` is followed by its neighbour. -/
def following (I : DyadicInterval) (floor : Int) : DyadicInterval :=
  coarsen floor ⟨I.offset + 1, I.power⟩

/-- Both intervals lie on one side of zero. No dyadic interval straddles zero, so only then do two
intervals have a common ancestor. -/
def SameSide (I J : DyadicInterval) : Prop :=
  I.offset < 0 ↔ J.offset < 0

instance (I J : DyadicInterval) : Decidable (SameSide I J) :=
  inferInstanceAs (Decidable (_ ↔ _))

@[simp] theorem left_offset (I : DyadicInterval) : I.left.offset = 2 * I.offset := rfl

@[simp] theorem left_power (I : DyadicInterval) : I.left.power = I.power + 1 := rfl

@[simp] theorem right_offset (I : DyadicInterval) : I.right.offset = 2 * I.offset + 1 := rfl

@[simp] theorem right_power (I : DyadicInterval) : I.right.power = I.power + 1 := rfl

@[simp] theorem parent_offset (I : DyadicInterval) : I.parent.offset = I.offset / 2 := rfl

@[simp] theorem parent_power (I : DyadicInterval) : I.parent.power = I.power - 1 := rfl

@[ext] theorem ext {I J : DyadicInterval} (ho : I.offset = J.offset) (hp : I.power = J.power) :
    I = J := by
  cases I
  cases J
  simp_all

@[simp] theorem parent_left (I : DyadicInterval) : I.left.parent = I := by
  ext <;> simp

@[simp] theorem parent_right (I : DyadicInterval) : I.right.parent = I := by
  ext
  · simp only [parent_offset, right_offset]
    omega
  · simp

theorem half_eq_left_iff (I : DyadicInterval) : I.half = .left ↔ I.offset % 2 = 0 := by
  unfold half
  split <;> simp_all

theorem half_eq_right_iff (I : DyadicInterval) : I.half = .right ↔ I.offset % 2 = 1 := by
  unfold half
  split <;> simp <;> omega

@[simp] theorem half_left (I : DyadicInterval) : I.left.half = .left := by
  rw [half_eq_left_iff, left_offset]
  omega

@[simp] theorem half_right (I : DyadicInterval) : I.right.half = .right := by
  rw [half_eq_right_iff, right_offset]
  omega

theorem contains_iff (I J : DyadicInterval) :
    I.contains J = true ↔
      I.power ≤ J.power ∧ J.offset >>> (J.power - I.power).toNat = I.offset := by
  simp [contains]

@[simp] theorem contains_self (I : DyadicInterval) : I.contains I = true := by
  simp [contains]

end DyadicInterval

end SignatureCache
