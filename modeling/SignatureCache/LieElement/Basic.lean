import SignatureCache.Failure

/-!
# Lie elements of depth at most two

An element of the free Lie algebra over letters `1 … w`, cut off after depth one or two: one
coefficient for every letter and, at depth two, one for the bracket of every two letters `i < j`, in
lexicographic order. At depth two the Baker–Campbell–Hausdorff product is `x + y + ½ [x, y]`, and the
product of log-signatures of neighbouring intervals is the log-signature of both together.

`minors x y` holds the level-two part of `[x, y]`: for all letters `i < j` the number
`x_i y_j - x_j y_i`, in the order in which level two is stored.
-/

namespace SignatureCache

/-- Where elements are cut off. -/
inductive Depth where
  | one
  | two
deriving DecidableEq, Inhabited

namespace Depth

def toNat : Depth → Nat
  | one => 1
  | two => 2

def ofNat? : Nat → Option Depth
  | 1 => some one
  | 2 => some two
  | _ => none

/-- The number of brackets of two out of `width` letters that are kept. -/
def brackets (depth : Depth) (width : Nat) : Nat :=
  match depth with
  | one => 0
  | two => width * (width - 1) / 2

end Depth

variable {K : Type} [Scalar K]

/-- The numbers `x_i y_j - x_j y_i` for all `i < j`, in lexicographic order. -/
def minors : List K → List K → List K
  | x :: xs, y :: ys => List.zipWith (fun x' y' => x * y' - x' * y) xs ys ++ minors xs ys
  | _, _ => []

theorem triangle_succ (n : Nat) : (n + 1) * n / 2 = n + n * (n - 1) / 2 := by
  have : (n + 1) * n = n * (n - 1) + n * 2 := by
    cases n with
    | zero => rfl
    | succ n => simp only [Nat.add_sub_cancel]; rw [← Nat.mul_add, Nat.mul_comm]
  rw [this, Nat.add_mul_div_right _ _ (by decide), Nat.add_comm]

theorem length_minors (xs ys : List K) (h : xs.length = ys.length) :
    (minors xs ys).length = xs.length * (xs.length - 1) / 2 := by
  induction xs generalizing ys with
  | nil => simp [minors]
  | cons x xs ih =>
    cases ys with
    | nil => simp at h
    | cons y ys =>
      have h : xs.length = ys.length := by simpa using h
      rw [minors, List.length_append, List.length_zipWith, ih ys h, ← h, Nat.min_self,
        List.length_cons, Nat.add_sub_cancel, triangle_succ]

/-- An element of the Lie algebra, by its coefficients. -/
structure LieElement (K : Type) where
  depth : Depth
  /-- The coefficients of the letters. -/
  letters : List K
  /-- The coefficients of the brackets `[i, j]` with `i < j`, in lexicographic order. -/
  pairs : List K
  length_pairs : pairs.length = depth.brackets letters.length

namespace LieElement

/-- The number of letters. -/
def width (x : LieElement K) : Nat :=
  x.letters.length

/-- The element without terms. -/
def zero (width : Nat) (depth : Depth) : LieElement K where
  depth := depth
  letters := List.replicate width Scalar.zero
  pairs := List.replicate (depth.brackets width) Scalar.zero
  length_pairs := by simp

/-- The element with the given letters and no brackets: the log-signature of one straight step. -/
def ofLetters (letters : List K) (depth : Depth) : LieElement K where
  depth := depth
  letters := letters
  pairs := List.replicate (depth.brackets letters.length) Scalar.zero
  length_pairs := by simp

/-- Two elements of one algebra. -/
def SameShape (x y : LieElement K) : Prop :=
  x.width = y.width ∧ x.depth = y.depth

/-- The level-two coefficients of a product: those of both factors, and half of the bracket of
their letters. -/
def productPairs (x y : LieElement K) : List K :=
  match x.depth with
  | .one => []
  | .two =>
    List.zipWith (fun sum minor => sum + Scalar.half * minor)
      (List.zipWith (· + ·) x.pairs y.pairs) (minors x.letters y.letters)

/-- The Baker–Campbell–Hausdorff product. -/
def product (x y : LieElement K) (h : SameShape x y) : LieElement K where
  depth := x.depth
  letters := List.zipWith (· + ·) x.letters y.letters
  pairs := productPairs x y
  length_pairs := by
    obtain ⟨hw, hd⟩ := h
    have hw : x.letters.length = y.letters.length := hw
    have hx := x.length_pairs
    have hy := y.length_pairs
    rw [← hd, ← hw] at hy
    unfold productPairs
    rw [List.length_zipWith, ← hw, Nat.min_self]
    split
    · rename_i hdepth
      rw [hdepth]
      rfl
    · rename_i hdepth
      rw [List.length_zipWith, List.length_zipWith, length_minors _ _ hw, hx, hy, hdepth]
      simp [Depth.brackets]

/-- The product, refused where the factors are of two different algebras. -/
def product? (x y : LieElement K) : Except Fault (LieElement K) :=
  if hw : x.width = y.width then
    if hd : x.depth = y.depth then .ok (product x y ⟨hw, hd⟩) else .error .depthMismatch
  else .error .widthMismatch

/-- The elements of one algebra. -/
abbrev Shaped (K : Type) [Scalar K] (width : Nat) (depth : Depth) : Type :=
  { x : LieElement K // x.width = width ∧ x.depth = depth }

namespace Shaped

variable {width : Nat} {depth : Depth}

/-- The zero of the algebra. -/
def zero : Shaped K width depth :=
  ⟨.zero width depth, by simp [LieElement.zero, LieElement.width], rfl⟩

/-- The element with the given letters and no brackets. -/
def ofLetters (letters : List K) (h : letters.length = width) : Shaped K width depth :=
  ⟨.ofLetters letters depth, h, rfl⟩

/-- The product, which stays in the algebra. -/
def product (x y : Shaped K width depth) : Shaped K width depth :=
  have h : SameShape x.val y.val := ⟨x.2.1.trans y.2.1.symm, x.2.2.trans y.2.2.symm⟩
  ⟨x.val.product y.val h, by
    have hw : x.val.letters.length = y.val.letters.length := h.1
    have hx : x.val.letters.length = width := x.2.1
    simp only [LieElement.width, LieElement.product, List.length_zipWith, ← hw, Nat.min_self, hx],
    x.2.2⟩

end Shaped

/-- Multiplies every coefficient by a number. -/
def scaled (x : LieElement K) (factor : K) : LieElement K where
  depth := x.depth
  letters := x.letters.map (· * factor)
  pairs := x.pairs.map (· * factor)
  length_pairs := by simp [x.length_pairs]

/-- Half of an element. -/
def halved (x : LieElement K) : LieElement K :=
  x.scaled Scalar.half

/-- Where the bracket of letters `i < j` (counted from zero) is stored among `width` letters: after
the `width - 1, width - 2, …` brackets of the letters before `i`. -/
def pairIndex (width i j : Nat) : Nat :=
  i * width - i * (i + 1) / 2 + (j - i - 1)

/-- The stored coefficient of the bracket of letters `i < j`. -/
def storedBracket (x : LieElement K) (i j : Nat) : K :=
  if j < x.width then x.pairs.getD (pairIndex x.width i j) Scalar.zero else Scalar.zero

/-- The coefficient of the bracket `[i, j]` of two letters, counted from zero; it changes sign with
the order of the letters, and is zero where no bracket is stored. Letters are not checked here. -/
def bracket (x : LieElement K) (i j : Nat) : K :=
  match x.depth with
  | .one => Scalar.zero
  | .two =>
    if i < j then x.storedBracket i j
    else if j < i then -x.storedBracket j i
    else Scalar.zero

/-- The coefficient of the bracket of two letters, refused where it would be stored and one of them
is no letter. -/
def bracket? (x : LieElement K) (i j : Nat) : Except Fault K :=
  if x.depth = .two ∧ i ≠ j ∧ ¬ max i j < x.width then .error .letterMissing
  else .ok (x.bracket i j)

/-- All coefficients: letters first, then brackets. -/
def coefficients (x : LieElement K) : List K :=
  x.letters ++ x.pairs

/-- Equality of scalars, coefficient by coefficient. -/
def same (x y : LieElement K) : Bool :=
  x.width == y.width && x.depth == y.depth &&
    (List.zipWith Scalar.same x.coefficients y.coefficients).all id

/-- Whether no two corresponding coefficients are further apart than `tolerance`. -/
def approxSame (x y : LieElement K) (tolerance : K) : Bool :=
  x.width == y.width && x.depth == y.depth &&
    (List.zipWith (fun a b => Scalar.atMost (Scalar.abs (a - b)) tolerance)
      x.coefficients y.coefficients).all id

end LieElement

end SignatureCache
