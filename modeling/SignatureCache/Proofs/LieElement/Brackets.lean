import Mathlib.Data.List.Basic
import SignatureCache.Proofs.LieElement.Product

/-!
# The brackets of a product, one by one

The brackets of letters `i < j` are stored in lexicographic order. Read off the pairs in that order,
the places where they are stored are `0, 1, 2, …` up to the number of brackets, so two nested loops
over the letters come to every place once. A product that adds half of a minor in place, each time
at the place of its bracket, therefore leaves in every place what one addition makes of it, and
gives the coefficients of the product. All of it holds for any scalars, whose operations are done in
one order only.
-/

namespace SignatureCache

/-! ### Triangles -/

theorem triangle_step (i : Nat) : (i + 1) * (i + 1 + 1) / 2 = i * (i + 1) / 2 + (i + 1) := by
  have h := triangle_succ (i + 1)
  rw [Nat.add_sub_cancel] at h
  rw [Nat.mul_comm (i + 1) (i + 1 + 1), Nat.mul_comm i (i + 1), h, Nat.add_comm]

theorem triangle_le {i width : Nat} (h : i ≤ width) : i * (i + 1) / 2 ≤ i * width := by
  apply Nat.div_le_of_le_mul
  have hsquare : i * i ≤ i * width := Nat.mul_le_mul_left i h
  have hlinear : i ≤ i * width := by
    rcases Nat.eq_zero_or_pos i with rfl | hpos
    · exact Nat.zero_le _
    · exact Nat.le_mul_of_pos_right i (by omega)
  rw [Nat.mul_add, Nat.mul_one]
  omega

theorem square_sub_triangle (width : Nat) :
    width * width - width * (width + 1) / 2 = width * (width - 1) / 2 := by
  have htriangle := triangle_succ width
  obtain ⟨k, hk⟩ := Nat.even_mul_pred_self width
  have hsquare : width * width = width * (width - 1) + width := by
    cases width with
    | zero => rfl
    | succ width => rw [Nat.add_sub_cancel, ← Nat.mul_succ]
  rw [Nat.mul_comm width (width + 1)]
  omega

/-! ### Pairs of letters -/

/-- The pairs of a letter with the letters after it, counted from zero. -/
def pairsFrom (width i : Nat) : List (Nat × Nat) :=
  (List.range (width - (i + 1))).map fun d => (i, i + 1 + d)

/-- The pairs `i < j` of letters, in the order of two nested loops. -/
def pairsBelow (width : Nat) : List (Nat × Nat) :=
  (List.range width).flatMap (pairsFrom width)

theorem mem_pairsBelow {width i j : Nat} : (i, j) ∈ pairsBelow width ↔ i < j ∧ j < width := by
  simp only [pairsBelow, pairsFrom, List.mem_flatMap, List.mem_range, List.mem_map, Prod.mk.injEq]
  constructor
  · rintro ⟨i, hi, d, hd, rfl, rfl⟩
    omega
  · rintro ⟨hij, hj⟩
    exact ⟨i, by omega, j - (i + 1), by omega, rfl, by omega⟩

theorem pairwise_pairsBelow (width : Nat) :
    (pairsBelow width).Pairwise (Prod.Lex (· < ·) (· < ·)) := by
  rw [pairsBelow, List.pairwise_flatMap]
  constructor
  · intro i _
    rw [pairsFrom, List.pairwise_map]
    exact List.pairwise_lt_range.imp fun h => Prod.Lex.right i (by omega)
  · refine List.pairwise_lt_range.imp ?_
    intro i i' h p hp p' hp'
    obtain ⟨d, -, rfl⟩ := List.mem_map.1 hp
    obtain ⟨d', -, rfl⟩ := List.mem_map.1 hp'
    exact Prod.Lex.left _ _ h

/-- The pairs with the first letter come first, then those of the letters after it. -/
theorem pairsBelow_succ (width : Nat) :
    pairsBelow (width + 1) =
      (List.range width).map (fun d => (0, d + 1)) ++
        (pairsBelow width).map fun p => (p.1 + 1, p.2 + 1) := by
  have hrest : ∀ i, pairsFrom (width + 1) (i + 1) =
      (pairsFrom width i).map fun p => (p.1 + 1, p.2 + 1) := by
    intro i
    rw [pairsFrom, pairsFrom, List.map_map, Nat.add_sub_add_right]
    apply List.map_congr_left
    intro d _
    simp only [Function.comp_apply, Prod.mk.injEq, true_and]
    omega
  rw [pairsBelow, List.range_succ_eq_map, List.flatMap_cons, List.flatMap_map, pairsBelow,
    List.map_flatMap]
  congr 1
  · rw [pairsFrom, Nat.zero_add, Nat.add_sub_cancel]
    apply List.map_congr_left
    intro d _
    rw [Nat.add_comm]
  · exact List.flatMap_congr fun i _ => hrest i

/-! ### Where brackets are stored -/

open LieElement

/-- The places of one row follow each other. -/
theorem map_pairIndex_pairsFrom (width i : Nat) :
    (pairsFrom width i).map (fun p => pairIndex width p.1 p.2) =
      List.range' (i * width - i * (i + 1) / 2) (width - (i + 1)) := by
  rw [pairsFrom, List.map_map, List.range'_eq_map_range]
  apply List.map_congr_left
  intro d _
  simp only [Function.comp_apply, pairIndex]
  omega

/-- The places of the first rows are the first numbers. -/
theorem map_pairIndex_rows {width n : Nat} (h : n ≤ width) :
    ((List.range n).flatMap (pairsFrom width)).map (fun p => pairIndex width p.1 p.2) =
      List.range (n * width - n * (n + 1) / 2) := by
  induction n with
  | zero => simp
  | succ n ih =>
    have hstep := triangle_step n
    have hrow := triangle_le (show n ≤ width by omega)
    have hend := triangle_le h
    have hwidth : (n + 1) * width = n * width + width := Nat.succ_mul n width
    have hnext : n * width - n * (n + 1) / 2 + (width - (n + 1)) =
        (n + 1) * width - (n + 1) * (n + 1 + 1) / 2 := by
      omega
    rw [List.range_succ, List.flatMap_append, List.map_append, ih (by omega),
      List.flatMap_singleton, map_pairIndex_pairsFrom, ← hnext, List.range_eq_range',
      List.range_eq_range', ← List.range'_append_1, Nat.zero_add]

/-- In lexicographic order the places of the brackets are all numbers up to the number of brackets,
one after the other. -/
theorem map_pairIndex_pairsBelow (width : Nat) :
    (pairsBelow width).map (fun p => pairIndex width p.1 p.2) =
      List.range (width * (width - 1) / 2) := by
  rw [pairsBelow, map_pairIndex_rows (Nat.le_refl _), square_sub_triangle]

theorem length_pairsBelow (width : Nat) :
    (pairsBelow width).length = width * (width - 1) / 2 := by
  have h := congrArg List.length (map_pairIndex_pairsBelow width)
  rwa [List.length_map, List.length_range] at h

/-- The pair that comes `n`-th has its bracket at the place `n`. -/
theorem getElem?_pairsBelow {width i j : Nat} (hij : i < j) (hj : j < width) :
    (pairsBelow width)[pairIndex width i j]? = some (i, j) := by
  obtain ⟨n, hn⟩ := List.mem_iff_getElem?.1 (mem_pairsBelow.2 ⟨hij, hj⟩)
  have hplace := congrArg (·[n]?) (map_pairIndex_pairsBelow width)
  rw [List.getElem?_map, hn, Option.map_some] at hplace
  obtain ⟨_, hplace⟩ := List.getElem?_eq_some_iff.1 hplace.symm
  rw [List.getElem_range] at hplace
  rwa [← hplace]

theorem pairIndex_lt {width i j : Nat} (hij : i < j) (hj : j < width) :
    pairIndex width i j < width * (width - 1) / 2 := by
  obtain ⟨h, -⟩ := List.getElem?_eq_some_iff.1 (getElem?_pairsBelow hij hj)
  rwa [length_pairsBelow] at h

/-! ### Loops -/

/-- A run of steps, each of which succeeds, ends where the same run without failures ends. -/
theorem foldlM_eq_some {σ ι : Type} {step : σ → ι → Option σ} {ps : List ι} (P : σ → Prop)
    (next : σ → ι → σ) (hnext : ∀ s p, P s → P (next s p))
    (hstep : ∀ p ∈ ps, ∀ s, P s → step s p = some (next s p)) {s : σ} (hs : P s) :
    ps.foldlM step s = some (ps.foldl next s) := by
  induction ps generalizing s with
  | nil => rfl
  | cons p ps ih =>
    rw [List.forall_mem_cons] at hstep
    rw [List.foldlM_cons, hstep.1 s hs, List.foldl_cons]
    exact ih hstep.2 (hnext s p hs)

/-- Where steps change one place after the other, every place is changed by one step. -/
theorem foldl_modify {ι α : Type} {place : ι → Nat} {ps : List ι} (f : ι → α → α)
    (done todo : List α) (hplace : ps.map place = List.range' done.length ps.length)
    (hlength : todo.length = ps.length) :
    ps.foldl (fun sums p => sums.modify (place p) (f p)) (done ++ todo) =
      done ++ List.zipWith f ps todo := by
  induction ps generalizing done todo with
  | nil => simpa using hlength
  | cons p ps ih =>
    obtain ⟨a, todo, rfl⟩ := List.exists_cons_of_length_eq_add_one hlength
    rw [List.map_cons, List.length_cons, List.range'_succ, List.cons.injEq] at hplace
    obtain ⟨hfirst, hrest⟩ := hplace
    have hchange : (done ++ a :: todo).modify (place p) (f p) = (done ++ [f p a]) ++ todo := by
      rw [hfirst, List.modify_eq_take_cons_drop (by simp)]
      simp
    rw [List.foldl_cons, hchange, ih _ _ (by simpa using hrest) (by simpa using hlength)]
    simp

/-! ### Minors by their letters -/

variable {K : Type} [Scalar K]

/-- The number `x_i y_j - x_j y_i` for one pair of letters. -/
def minorAt (xs ys : List K) (i j : Nat) : K :=
  xs.getD i Scalar.zero * ys.getD j Scalar.zero - xs.getD j Scalar.zero * ys.getD i Scalar.zero

theorem minors_eq_map {xs ys : List K} (h : xs.length = ys.length) :
    minors xs ys = (pairsBelow xs.length).map fun p => minorAt xs ys p.1 p.2 := by
  induction xs generalizing ys with
  | nil => rfl
  | cons x xs ih =>
    obtain ⟨y, ys, rfl⟩ := List.exists_cons_of_length_eq_add_one h.symm
    have h : xs.length = ys.length := by simpa using h
    rw [minors, ih h, List.length_cons, pairsBelow_succ, List.map_append, List.map_map,
      List.map_map]
    congr 1
    apply List.ext_getElem
    · simp [← h]
    · intro d hd _
      have hx : d < xs.length := by
        rw [List.length_zipWith] at hd
        omega
      have hy : d < ys.length := h ▸ hx
      simp [minorAt, hx, hy]

/-! ### The product in place -/

namespace LieElement

/-- The number, if it is no greater than the greatest word. -/
def word? (greatest n : Nat) : Option Nat :=
  if n ≤ greatest then some n else none

/-- The difference of two words, which are not negative. -/
def difference? (m n : Nat) : Option Nat :=
  if n ≤ m then some (m - n) else none

/-- Where a bracket is stored, computed in words; only letters `i < j` have a place. -/
def pairIndexInWords? (greatest width i j : Nat) : Option Nat := do
  guard (i < j ∧ j < width)
  let rows ← word? greatest (i * width)
  let square ← word? greatest (i * (← word? greatest (i + 1)))
  let row ← difference? rows (square / 2)
  let column ← difference? (← difference? j i) 1
  word? greatest (row + column)

/-- Adds half of the minor of two letters at the place of their bracket. There is no answer if a
number on the way is no word, or if a letter or the place is missing. -/
def addHalfMinor? (greatest : Nat) (x y : LieElement K) (sums : List K) (p : Nat × Nat) :
    Option (List K) := do
  let minor := (← x.letters[p.1]?) * (← y.letters[p.2]?) - (← x.letters[p.2]?) * (← y.letters[p.1]?)
  let place ← pairIndexInWords? greatest x.width p.1 p.2
  let sum ← sums[place]?
  return sums.set place (sum + Scalar.half * minor)

/-- The level-two coefficients of a product, added up in place: first those of both factors, then
half a minor for every two letters, in the order of two nested loops. -/
def productPairsInPlace? (greatest : Nat) (x y : LieElement K) : Option (List K) :=
  match x.depth with
  | .one => some x.pairs
  | .two =>
    (pairsBelow x.width).foldlM (addHalfMinor? greatest x y)
      (List.zipWith (· + ·) x.pairs y.pairs)

/-- No step of the computation of a place leaves the words that hold the square of the width. -/
theorem pairIndexInWords?_eq {greatest width i j : Nat} (hij : i < j) (hj : j < width)
    (hgreatest : width * width ≤ greatest) :
    pairIndexInWords? greatest width i j = some (pairIndex width i j) := by
  have hrows : i * width ≤ width * width := Nat.mul_le_mul_right width (by omega)
  have hsquare : i * (i + 1) ≤ i * width := Nat.mul_le_mul_left i (by omega)
  have hnext : i + 1 ≤ greatest := by
    have := Nat.le_mul_self width
    omega
  have hrow := triangle_le (show i ≤ width by omega)
  have hplace := pairIndex_lt hij hj
  have hhalf : width * (width - 1) / 2 ≤ width * width :=
    (Nat.div_le_self _ 2).trans (Nat.mul_le_mul_left width (Nat.sub_le width 1))
  have hguard : (guard (i < j ∧ j < width) : Option Unit) = some () := by simp [hij, hj]
  rw [pairIndex] at hplace ⊢
  simp only [pairIndexInWords?, hguard, word?, difference?, Option.bind_eq_bind, Option.bind_some]
  rw [if_pos (show i * width ≤ greatest by omega), Option.bind_some, if_pos hnext,
    Option.bind_some, if_pos (show i * (i + 1) ≤ greatest by omega), Option.bind_some,
    if_pos hrow, Option.bind_some, if_pos hij.le, Option.bind_some,
    if_pos (show 1 ≤ j - i by omega), Option.bind_some,
    if_pos (show _ ≤ greatest by omega)]

/-- One step of the loop changes the place of its bracket and no other. -/
theorem addHalfMinor?_eq {greatest : Nat} {x y : LieElement K} {sums : List K} {i j : Nat}
    (hwidth : x.width = y.width) (hsums : sums.length = x.width * (x.width - 1) / 2)
    (hgreatest : x.width * x.width ≤ greatest) (hij : i < j) (hj : j < x.width) :
    addHalfMinor? greatest x y sums (i, j) =
      some (sums.modify (pairIndex x.width i j)
        (· + Scalar.half * minorAt x.letters y.letters i j)) := by
  have hletter : ∀ {xs : List K} {n : Nat}, n < xs.length →
      xs[n]? = some (xs.getD n Scalar.zero) := by
    intro xs n hn
    rw [List.getD_eq_getElem?_getD, List.getElem?_eq_getElem hn, Option.getD_some]
  have hx : j < x.letters.length := hj
  have hy : j < y.letters.length := Nat.lt_of_lt_of_eq hj hwidth
  have hplace : pairIndex x.width i j < sums.length := hsums ▸ pairIndex_lt hij hj
  rw [addHalfMinor?, hletter (hij.trans hx), hletter hy, hletter hx, hletter (hij.trans hy),
    pairIndexInWords?_eq hij hj hgreatest]
  simp only [Option.bind_eq_bind, Option.bind_some, List.getElem?_eq_getElem hplace]
  rw [List.modify_eq_set_getElem?, List.getElem?_eq_getElem hplace]
  rfl

/-- Added up in place, the level-two coefficients are those of the product. -/
theorem productPairsInPlace?_eq {greatest : Nat} {x y : LieElement K} (h : SameShape x y)
    (hgreatest : x.width * x.width ≤ greatest) :
    productPairsInPlace? greatest x y = some (productPairs x y) := by
  cases hdepth : x.depth with
  | one => rw [productPairsInPlace?, hdepth, productPairs_of_one y hdepth, pairs_of_one hdepth]
  | two =>
    have hy : y.pairs.length = x.width * (x.width - 1) / 2 := by
      rw [length_pairs_of_two (h.2.symm.trans hdepth), h.1]
    have hsums : (List.zipWith (· + ·) x.pairs y.pairs).length =
        x.width * (x.width - 1) / 2 := by
      rw [List.length_zipWith, length_pairs_of_two hdepth, hy, Nat.min_self]
    rw [productPairsInPlace?, hdepth, productPairs_of_two y hdepth, minors_eq_map h.1]
    have hrun := foldlM_eq_some
      (fun sums : List K => sums.length = x.width * (x.width - 1) / 2)
      (fun sums (p : Nat × Nat) => sums.modify (pairIndex x.width p.1 p.2)
        (· + Scalar.half * minorAt x.letters y.letters p.1 p.2))
      (fun sums p hlength => by rw [List.length_modify, hlength])
      (fun p hp sums hlength => by
        obtain ⟨hij, hj⟩ := mem_pairsBelow.1 hp
        exact addHalfMinor?_eq h.1 hlength hgreatest hij hj)
      hsums
    refine hrun.trans (congrArg some ?_)
    have hplaces := map_pairIndex_pairsBelow x.width
    rw [← length_pairsBelow, List.range_eq_range'] at hplaces
    have hloop := foldl_modify
      (fun (p : Nat × Nat) sum => sum + Scalar.half * minorAt x.letters y.letters p.1 p.2)
      [] _ hplaces (hsums.trans (length_pairsBelow x.width).symm)
    rw [List.nil_append, List.nil_append] at hloop
    rw [hloop, List.zipWith_comm, List.zipWith_map_right]
    rfl

/-! ### Brackets of a product -/

/-- The coefficient of a letter, counted from zero. -/
def letter (x : LieElement K) (i : Nat) : K :=
  x.letters.getD i Scalar.zero

theorem bracket_of_lt {x : LieElement K} {i j : Nat} (hdepth : x.depth = .two) (hij : i < j)
    (hj : j < x.width) : x.bracket i j = x.pairs.getD (pairIndex x.width i j) Scalar.zero := by
  rw [bracket, hdepth]
  simp only [if_pos hij, storedBracket, if_pos hj]

theorem bracket_swap {x : LieElement K} {i j : Nat} (hdepth : x.depth = .two) (hij : i < j) :
    x.bracket j i = -x.bracket i j := by
  simp only [bracket, hdepth, if_pos hij, if_neg hij.asymm]

theorem bracket_self (x : LieElement K) (i : Nat) : x.bracket i i = Scalar.zero := by
  unfold bracket
  split
  · rfl
  · rw [if_neg (Nat.lt_irrefl i), if_neg (Nat.lt_irrefl i)]

theorem letter_product {x y : LieElement K} (h : SameShape x y) {i : Nat} (hi : i < x.width) :
    (x.product y h).letter i = x.letter i + y.letter i := by
  have hx : i < x.letters.length := hi
  have hy : i < y.letters.length := Nat.lt_of_lt_of_eq hi h.1
  simp [letter, product, hx, hy]

/-- The bracket of two letters in a product: the sum of their brackets in the factors, and half of
their minor. -/
theorem bracket_product {x y : LieElement K} (h : SameShape x y) (hdepth : x.depth = .two)
    {i j : Nat} (hij : i < j) (hj : j < x.width) :
    (x.product y h).bracket i j =
      x.bracket i j + y.bracket i j + Scalar.half * minorAt x.letters y.letters i j := by
  have hdepthy : y.depth = .two := h.2.symm.trans hdepth
  have hwidth : (x.product y h).width = x.width := by
    have hletters : x.letters.length = y.letters.length := h.1
    simp [width, product, hletters]
  have hplace := pairIndex_lt hij hj
  have hx : pairIndex x.width i j < x.pairs.length := by rwa [length_pairs_of_two hdepth]
  have hy : pairIndex x.width i j < y.pairs.length := by
    rwa [length_pairs_of_two hdepthy, ← h.1]
  have hminor : (minors x.letters y.letters)[pairIndex x.width i j]? =
      some (minorAt x.letters y.letters i j) := by
    rw [minors_eq_map h.1, List.getElem?_map]
    exact congrArg (Option.map _) (getElem?_pairsBelow hij hj)
  rw [bracket_of_lt (x := x.product y h) hdepth hij (hwidth.symm ▸ hj), hwidth,
    bracket_of_lt hdepth hij hj, bracket_of_lt hdepthy hij (h.1 ▸ hj), ← h.1]
  change (productPairs x y).getD _ _ = _
  rw [productPairs_of_two y hdepth]
  simp [List.getD_eq_getElem?_getD, List.getElem?_zipWith, hminor, hx, hy]

/-- The elements that are built in one algebra. -/
inductive Built (width : Nat) (depth : Depth) : LieElement K → Prop
  | zero : Built width depth (.zero width depth)
  | ofLetters (letters : List K) (h : letters.length = width) :
    Built width depth (.ofLetters letters depth)
  | product {x y : LieElement K} (h : SameShape x y) (hx : Built width depth x)
    (hy : Built width depth y) : Built width depth (x.product y h)
  | scaled {x : LieElement K} (factor : K) (hx : Built width depth x) :
    Built width depth (x.scaled factor)

theorem Built.shape {width : Nat} {depth : Depth} {x : LieElement K} (h : Built width depth x) :
    x.width = width ∧ x.depth = depth := by
  induction h with
  | zero => simp [LieElement.zero, LieElement.width]
  | ofLetters letters h => exact ⟨h, rfl⟩
  | product h _ _ ihx _ =>
    have hletters := h.1
    simp only [LieElement.width] at hletters ihx
    refine ⟨?_, ihx.2⟩
    simp only [LieElement.width, LieElement.product, List.length_zipWith]
    omega
  | scaled factor _ ih => exact ⟨(width_scaled _ factor).trans ih.1, ih.2⟩

/-- The places of brackets are the numbers up to the number of brackets, in the order in which two
nested loops go through the letters, and words that hold the square of the width hold everything on
the way to a place. The product of two elements of an algebra is in that algebra; added up in place
it comes out the same; its letters are sums of letters; and each bracket of letters `i < j` is the
sum of both brackets, and half of `x_i y_j - x_j y_i` added to it. -/
theorem product_visits_each_bracket_once (greatest width : Nat) (depth : Depth)
    (hgreatest : width * width ≤ greatest) :
    (∀ i j, (i, j) ∈ pairsBelow width ↔ i < j ∧ j < width) ∧
    (pairsBelow width).Pairwise (Prod.Lex (· < ·) (· < ·)) ∧
    (pairsBelow width).map (fun p => pairIndex width p.1 p.2) =
      List.range (width * (width - 1) / 2) ∧
    (∀ i j, i < j → j < width →
      pairIndexInWords? greatest width i j = some (pairIndex width i j)) ∧
    ∀ x y : LieElement K, Built width depth x → Built width depth y →
      ∃ p, x.product? y = .ok p ∧ Built width depth p ∧
        p.letters.length = width ∧ p.pairs.length = depth.brackets width ∧
        productPairsInPlace? greatest x y = some p.pairs ∧
        (∀ i, i < width → p.letter i = x.letter i + y.letter i) ∧
        (depth = .two → ∀ i j, i < j → j < width →
          p.bracket i j = (x.bracket i j + y.bracket i j) +
            Scalar.half * (x.letter i * y.letter j - x.letter j * y.letter i) ∧
          p.bracket j i = -p.bracket i j) ∧
        ∀ i, p.bracket i i = Scalar.zero := by
  refine ⟨fun i j => mem_pairsBelow, pairwise_pairsBelow width, map_pairIndex_pairsBelow width,
    fun i j hij hj => pairIndexInWords?_eq hij hj hgreatest, ?_⟩
  intro x y hx hy
  have h : SameShape x y :=
    ⟨hx.shape.1.trans hy.shape.1.symm, hx.shape.2.trans hy.shape.2.symm⟩
  have hp := Built.product h hx hy
  obtain ⟨hwidth, hdepth⟩ := hx.shape
  refine ⟨x.product y h, product?_of_sameShape h, hp, hp.shape.1, ?_, ?_, ?_, ?_, bracket_self _⟩
  · rw [(x.product y h).length_pairs, hp.shape.2]
    exact congrArg _ hp.shape.1
  · exact productPairsInPlace?_eq h (hwidth.symm ▸ hgreatest)
  · intro i hi
    exact letter_product h (hwidth.symm ▸ hi)
  · intro htwo i j hij hj
    have htwo : x.depth = .two := hdepth.trans htwo
    exact ⟨bracket_product h htwo hij (hwidth.symm ▸ hj), bracket_swap htwo hij⟩

/-- With three letters there are three brackets, and each has a minor of its own. -/
theorem product_visits_each_bracket_once_of_three_letters :
    let x : LieElement Float := .ofLetters [1.0, 2.0, -1.0] .two
    let y : LieElement Float := (ofLetters [0.5, -1.0, 3.0] .two).scaled 2.0
    3 * 3 ≤ 9 ∧ ∃ p, x.product? y = .ok p ∧ productPairsInPlace? 9 x y = some p.pairs ∧
      p.letter 2 = 5.0 ∧ p.bracket 0 1 = -2.0 ∧ p.bracket 0 2 = 3.5 ∧ p.bracket 1 2 = 5.0 ∧
      p.bracket 2 1 = -5.0 := by
  intro x y
  have hx : Built 3 .two x := .ofLetters _ rfl
  have hy : Built 3 .two y := .scaled _ (.ofLetters _ rfl)
  obtain ⟨-, -, -, -, hproduct⟩ :=
    product_visits_each_bracket_once (K := Float) 9 3 .two (by decide)
  obtain ⟨p, hp, -, -, -, hplace, hletters, hpairs, -⟩ := hproduct x y hx hy
  have hpairs := hpairs rfl
  refine ⟨by decide, p, hp, hplace, ?_, ?_, ?_, ?_, ?_⟩
  · exact (hletters 2 (by decide)).trans (by decide +kernel)
  · exact (hpairs 0 1 (by decide) (by decide)).1.trans (by decide +kernel)
  · exact (hpairs 0 2 (by decide) (by decide)).1.trans (by decide +kernel)
  · exact (hpairs 1 2 (by decide) (by decide)).1.trans (by decide +kernel)
  · rw [(hpairs 1 2 (by decide) (by decide)).2, (hpairs 1 2 (by decide) (by decide)).1]
    decide +kernel
end LieElement

end SignatureCache
