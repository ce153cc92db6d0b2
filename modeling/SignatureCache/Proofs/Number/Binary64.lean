import SignatureCache.Number.Binary64

/-!
# Doubles that compare equal

Of two doubles that are in order both ways, either both are the same or both are zeros, perhaps with
two signs. The sign of a zero is lost when the greatest integer below it is taken, also after a
multiplication.
-/

namespace SignatureCache

namespace Binary64

open Float.Model

theorem eq_or_zero_of_compare_eq {a b : UnpackedFloat} (h : a.compare b = some .eq) :
    a = b ∨ ∃ s s', a = .zero s ∧ b = .zero s' := by
  cases a with
  | notANumber => cases b <;> cases h
  | infinity s =>
    cases b with
    | infinity s' => cases s <;> cases s' <;> first | exact .inl rfl | cases h
    | notANumber => cases h
    | zero s' => cases s <;> cases h
    | finite s' => cases s <;> cases h
  | zero s =>
    cases b with
    | infinity s' => cases s' <;> cases h
    | notANumber => cases h
    | zero s' => exact .inr ⟨s, s', rfl, rfl⟩
    | finite s' => cases s' <;> cases h
  | finite s m e hm =>
    cases b with
    | infinity s' => cases s <;> cases s' <;> cases h
    | notANumber => cases h
    | zero s' => cases s <;> cases h
    | finite s' m' e' hm' =>
      have hparts : ((compare e e').then (compare m m')) = .eq → e = e' ∧ m = m' := by
        rw [Ordering.then_eq_eq, Std.LawfulEqOrd.compare_eq_iff_eq,
          Std.LawfulEqOrd.compare_eq_iff_eq]
        exact id
      cases s <;> cases s'
      · have heq : ((compare e e').then (compare m m')).swap = .eq := Option.some.inj h
        rw [Ordering.swap_eq_eq] at heq
        obtain ⟨rfl, rfl⟩ := hparts heq
        exact .inl rfl
      · cases h
      · cases h
      · obtain ⟨rfl, rfl⟩ := hparts (Option.some.inj h)
        exact .inl rfl

theorem compare_eq_of_le_of_not_lt {x y : Float} (hle : x ≤ y) (hlt : ¬ x < y) :
    x.toModel.unpack.compare y.toModel.unpack = some .eq := by
  have hle' : (x.toModel.unpack.compare y.toModel.unpack).any (·.isLE) = true :=
    of_decide_eq_true hle
  have hlt' : ¬ (x.toModel.unpack.compare y.toModel.unpack == some .lt) = true :=
    fun h => hlt (decide_eq_true h)
  cases h : x.toModel.unpack.compare y.toModel.unpack with
  | none => simp [h] at hle'
  | some ordering => cases ordering <;> simp_all

theorem floor?_zero (s : UnpackedFloat.Sign) : floor? (.ofModel (pack (.zero s))) = some 0 := by
  cases s with
  | negative => decide
  | positive => decide

theorem mul_zero_zero_or_eq (s s' : UnpackedFloat.Sign) (z : UnpackedFloat) :
    UnpackedFloat.mul Format.binary64 (.zero s) z = UnpackedFloat.mul Format.binary64 (.zero s') z ∨
      ∃ t t', UnpackedFloat.mul Format.binary64 (.zero s) z = .zero t ∧
        UnpackedFloat.mul Format.binary64 (.zero s') z = .zero t' := by
  cases z with
  | notANumber => exact .inl rfl
  | infinity sign => exact .inl rfl
  | zero sign => exact .inr ⟨_, _, rfl, rfl⟩
  | finite sign m e hm => exact .inr ⟨_, _, rfl, rfl⟩

/-- Ends in order both ways have one grid point at every scale. -/
theorem floor?_mul_eq {x y : Float} (hle : x ≤ y) (hlt : ¬ x < y) (z : Float) :
    floor? (x * z) = floor? (y * z) := by
  have hmul : ∀ w : Float, w * z =
      .ofModel (pack (UnpackedFloat.mul Format.binary64 w.toModel.unpack z.toModel.unpack)) :=
    fun _ => rfl
  rw [hmul, hmul]
  rcases eq_or_zero_of_compare_eq (compare_eq_of_le_of_not_lt hle hlt) with heq | ⟨s, s', hx, hy⟩
  · rw [heq]
  · rw [hx, hy]
    rcases mul_zero_zero_or_eq s s' z.toModel.unpack with heq | ⟨t, t', ht, ht'⟩
    · rw [heq]
    · rw [ht, ht', floor?_zero, floor?_zero]

/-! ### Products with an infinite power of two -/

theorem floor?_infinity (s : UnpackedFloat.Sign) :
    floor? (.ofModel (pack (.infinity s))) = none := by
  cases s with
  | negative => decide
  | positive => decide

theorem floor?_notANumber : floor? (.ofModel (pack .notANumber)) = none := by
  decide

/-- Where powers of two are infinite no product with one has a greatest integer below it: it is
infinite, too, or no number. -/
theorem floor?_mul_twoPow {n : Int} (h : 1024 ≤ n) (x : Float) : floor? (x * twoPow n) = none := by
  have hinf : (twoPow n).toModel.unpack = .infinity .positive := by
    rw [twoPow, if_pos h]
    rfl
  have hmul : x * twoPow n =
      .ofModel (pack
        (UnpackedFloat.mul Format.binary64 x.toModel.unpack (.infinity .positive))) := by
    rw [← hinf]
    rfl
  rw [hmul]
  cases x.toModel.unpack with
  | notANumber => exact floor?_notANumber
  | infinity s => exact floor?_infinity _
  | zero s => exact floor?_notANumber
  | finite s m e hm => exact floor?_infinity _

end Binary64

end SignatureCache
