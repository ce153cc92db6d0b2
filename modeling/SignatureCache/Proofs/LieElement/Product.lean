import Mathlib.Algebra.Order.Field.Rat
import Mathlib.Tactic.Ring
import SignatureCache.LieElement.Basic

/-!
# The product of exact elements

Over the rationals, where nothing is rounded, the product makes a monoid of the elements of one
algebra: the bracket is additive in both factors, so the level-two parts of a product of three agree
however it is bracketed. Multiples of one element commute with each other, their brackets vanish,
and the product of two of them is the multiple by the sum: the zero is the multiple by `0`, the
element itself the multiple by `1`, and two halves make up the whole.
-/

namespace SignatureCache

/-! ### The bracket is bilinear -/

theorem minors_add_left (xs ys zs : List ℚ) (hxy : xs.length = ys.length)
    (hyz : ys.length = zs.length) :
    minors (List.zipWith (· + ·) xs ys) zs =
      List.zipWith (· + ·) (minors xs zs) (minors ys zs) := by
  induction xs generalizing ys zs with
  | nil => simp [minors]
  | cons x xs ih =>
    obtain ⟨y, ys, rfl⟩ := List.exists_cons_of_length_eq_add_one hxy.symm
    obtain ⟨z, zs, rfl⟩ := List.exists_cons_of_length_eq_add_one hyz.symm
    have hxy : xs.length = ys.length := by simpa using hxy
    have hyz : ys.length = zs.length := by simpa using hyz
    simp only [List.zipWith_cons_cons, minors]
    rw [ih ys zs hxy hyz, List.zipWith_append (by simp [hxy])]
    congr 1
    apply List.ext_getElem
    · simp [hxy, hyz]
    · intro i _ _
      simp only [List.getElem_zipWith]
      ring

/-- The bracket changes its sign with the order of its arguments. -/
theorem minors_swap (xs ys : List ℚ) : minors ys xs = (minors xs ys).map (- ·) := by
  induction xs generalizing ys with
  | nil => cases ys <;> rfl
  | cons x xs ih =>
    cases ys with
    | nil => rfl
    | cons y ys =>
      simp only [minors, List.map_append]
      rw [ih ys]
      congr 1
      apply List.ext_getElem
      · simp [Nat.min_comm]
      · intro i _ _
        simp only [List.getElem_map, List.getElem_zipWith]
        ring

theorem minors_add_right (xs ys zs : List ℚ) (hxy : xs.length = ys.length)
    (hyz : ys.length = zs.length) :
    minors xs (List.zipWith (· + ·) ys zs) =
      List.zipWith (· + ·) (minors xs ys) (minors xs zs) := by
  rw [minors_swap, minors_add_left ys zs xs hyz (hyz ▸ hxy).symm, minors_swap xs ys,
    minors_swap xs zs]
  apply List.ext_getElem
  · simp
  · intro i _ _
    simp only [List.getElem_map, List.getElem_zipWith]
    ring

/-- Multiples of one element have no bracket. -/
theorem minors_multiples (xs : List ℚ) (a b : ℚ) :
    ∀ minor ∈ minors (xs.map (· * a)) (xs.map (· * b)), minor = 0 := by
  induction xs with
  | nil => simp [minors]
  | cons x xs ih =>
    intro minor hminor
    rw [List.map_cons, List.map_cons, minors, List.mem_append] at hminor
    rcases hminor with hfirst | hrest
    · simp only [List.zipWith_map, List.zipWith_self, List.mem_map] at hfirst
      obtain ⟨x', -, rfl⟩ := hfirst
      ring
    · exact ih minor hrest

namespace LieElement

/-! ### Shapes, over any scalars -/

section Shape

variable {K : Type} {x y : LieElement K}

theorem ext_coefficients (hdepth : x.depth = y.depth) (hletters : x.letters = y.letters)
    (hpairs : x.pairs = y.pairs) : x = y := by
  cases x
  cases y
  simp_all

theorem pairs_of_one (h : x.depth = .one) : x.pairs = [] :=
  List.eq_nil_of_length_eq_zero (by rw [x.length_pairs, h]; rfl)

theorem length_pairs_of_two (h : x.depth = .two) :
    x.pairs.length = x.width * (x.width - 1) / 2 := by
  rw [x.length_pairs, h]
  rfl

variable [Scalar K]

theorem length_minors_letters (hwidth : x.width = y.width) (hdepth : x.depth = .two) :
    (minors x.letters y.letters).length = x.pairs.length := by
  rw [length_minors _ _ hwidth, x.length_pairs, hdepth]
  rfl

theorem productPairs_of_one (y : LieElement K) (h : x.depth = .one) : productPairs x y = [] := by
  rw [productPairs, h]

theorem productPairs_of_two (y : LieElement K) (h : x.depth = .two) :
    productPairs x y =
      List.zipWith (fun sum minor => sum + Scalar.half * minor)
        (List.zipWith (· + ·) x.pairs y.pairs) (minors x.letters y.letters) := by
  rw [productPairs, h]

theorem product?_of_sameShape (h : SameShape x y) : product? x y = .ok (product x y h) := by
  have hwidth : x.width = y.width := h.1
  have hdepth : x.depth = y.depth := h.2
  simp [product?, hwidth, hdepth]

theorem width_scaled (x : LieElement K) (factor : K) : (x.scaled factor).width = x.width := by
  simp [scaled, width]

theorem sameShape_scaled (x : LieElement K) (a b : K) : SameShape (x.scaled a) (x.scaled b) :=
  ⟨(x.width_scaled a).trans (x.width_scaled b).symm, rfl⟩

namespace Shaped

variable {width : Nat} {depth : Depth}

theorem sameShape (x y : Shaped K width depth) : SameShape x.val y.val :=
  ⟨x.2.1.trans y.2.1.symm, x.2.2.trans y.2.2.symm⟩

/-- Factors of one algebra are never refused. -/
theorem product?_eq (x y : Shaped K width depth) :
    product? x.val y.val = .ok (x.product y).val :=
  product?_of_sameShape (x.sameShape y)

/-- The multiple by a number, which stays in the algebra. -/
def scaled (x : Shaped K width depth) (factor : K) : Shaped K width depth :=
  ⟨x.val.scaled factor, (x.val.width_scaled factor).trans x.2.1, x.2.2⟩

end Shaped

end Shape

theorem half_rat : (Scalar.half : ℚ) = 1 / 2 := rfl

/-! ### Multiples of one element -/

theorem scaled_one (x : LieElement ℚ) : x.scaled 1 = x := by
  apply ext_coefficients <;> simp [scaled]

/-- The product of two multiples is the multiple by the sum of their factors. -/
theorem product_scaled (x : LieElement ℚ) (a b : ℚ) :
    (x.scaled a).product (x.scaled b) (x.sameShape_scaled a b) = x.scaled (a + b) := by
  apply ext_coefficients
  · rfl
  · apply List.ext_getElem
    · simp [product, scaled]
    · intro i _ _
      simp only [product, scaled, List.getElem_zipWith, List.getElem_map]
      ring
  · change productPairs (x.scaled a) (x.scaled b) = (x.scaled (a + b)).pairs
    cases hdepth : (x.scaled a).depth with
    | one =>
      have hwhole : (x.scaled (a + b)).pairs = [] := pairs_of_one hdepth
      rw [productPairs_of_one _ hdepth, hwhole]
    | two =>
      have hlength := length_minors_letters (x.sameShape_scaled a b).1 hdepth
      rw [productPairs_of_two _ hdepth]
      apply List.ext_getElem
      · rw [List.length_zipWith, hlength]
        simp [scaled]
      · intro i hi _
        rw [List.length_zipWith] at hi
        have hminor := minors_multiples x.letters a b _ (List.getElem_mem (lt_min_iff.1 hi).2)
        simp only [scaled, List.getElem_zipWith, List.getElem_map] at hminor ⊢
        rw [hminor]
        ring

/-- The halves of an element make it up. -/
theorem product?_halved (x : LieElement ℚ) : product? x.halved x.halved = .ok x := by
  have h := x.product_scaled (1 / 2) (1 / 2)
  rw [show (1 / 2 + 1 / 2 : ℚ) = 1 by norm_num, scaled_one] at h
  exact (product?_of_sameShape _).trans (congrArg _ h)

/-! ### Products of three -/

theorem productPairs_assoc {x y z : LieElement ℚ} (hxy : SameShape x y) (hyz : SameShape y z) :
    productPairs (x.product y hxy) z = productPairs x (y.product z hyz) := by
  have hwidth : x.letters.length = y.letters.length := hxy.1
  have hwidth' : y.letters.length = z.letters.length := hyz.1
  cases hdepth : x.depth with
  | one =>
    have hproduct : (x.product y hxy).depth = .one := hdepth
    rw [productPairs_of_one z hproduct, productPairs_of_one _ hdepth]
  | two =>
    have hproduct : (x.product y hxy).depth = .two := hdepth
    have hdepth' : y.depth = .two := hxy.2.symm.trans hdepth
    rw [productPairs_of_two z hproduct, productPairs_of_two _ hdepth]
    simp only [product]
    rw [productPairs_of_two y hdepth, productPairs_of_two z hdepth',
      minors_add_left _ _ _ hwidth hwidth', minors_add_right _ _ _ hwidth hwidth']
    apply List.ext_getElem
    · have hxz := length_minors_letters (hxy.1.trans hyz.1) hdepth
      have hxy := length_minors_letters hxy.1 hdepth
      have hyz := length_minors_letters hyz.1 hdepth'
      simp [hxy, hyz, hxz]
    · intro i _ _
      simp only [List.getElem_zipWith, half_rat]
      ring

namespace Shaped

variable {width : Nat} {depth : Depth}

theorem scaled_one (x : Shaped ℚ width depth) : x.scaled 1 = x :=
  Subtype.ext x.val.scaled_one

theorem scaled_zero (x : Shaped ℚ width depth) : x.scaled 0 = zero := by
  obtain ⟨x, hwidth, rfl⟩ := x
  apply Subtype.ext
  apply ext_coefficients
  · rfl
  · simp only [scaled, zero, LieElement.scaled, mul_zero, List.map_const']
    exact congrArg (List.replicate · _) hwidth
  · simp only [scaled, zero, LieElement.scaled, mul_zero, List.map_const', x.length_pairs]
    exact congrArg (fun width => List.replicate (x.depth.brackets width) _) hwidth

theorem product_scaled (x : Shaped ℚ width depth) (a b : ℚ) :
    (x.scaled a).product (x.scaled b) = x.scaled (a + b) :=
  Subtype.ext (x.val.product_scaled a b)

theorem zero_product (x : Shaped ℚ width depth) : zero.product x = x := by
  have h := x.product_scaled 0 1
  rwa [zero_add, scaled_zero, scaled_one] at h

theorem product_zero (x : Shaped ℚ width depth) : x.product zero = x := by
  have h := x.product_scaled 1 0
  rwa [add_zero, scaled_zero, scaled_one] at h

theorem product_assoc (x y z : Shaped ℚ width depth) :
    (x.product y).product z = x.product (y.product z) := by
  apply Subtype.ext
  apply ext_coefficients
  · rfl
  · apply List.ext_getElem
    · simp [product, LieElement.product, Nat.min_assoc]
    · intro i _ _
      simp only [product, LieElement.product, List.getElem_zipWith]
      ring
  · exact productPairs_assoc (x.sameShape y) (y.sameShape z)

instance : Std.Associative
    (product : Shaped ℚ width depth → Shaped ℚ width depth → Shaped ℚ width depth) :=
  ⟨product_assoc⟩

/-- The product of a longer run is the product of its two parts. -/
theorem foldl_product_append (xs ys : List (Shaped ℚ width depth)) :
    (xs ++ ys).foldl product zero = (xs.foldl product zero).product (ys.foldl product zero) := by
  calc (xs ++ ys).foldl product zero
      = ys.foldl product ((xs.foldl product zero).product zero) := by
        rw [List.foldl_append, product_zero]
    _ = (xs.foldl product zero).product (ys.foldl product zero) := List.foldl_assoc

end Shaped

end LieElement

end SignatureCache
