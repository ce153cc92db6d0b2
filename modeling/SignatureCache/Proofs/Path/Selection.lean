import SignatureCache.Proofs.LieElement.Product
import SignatureCache.Proofs.Path.Data

/-!
# Increments between two parameters

On an array whose elements pass a test up to some index and not from there on, bisection finds that
index. The parameters of a path that was built from data never decrease, so the increments before a
number come first, and the increments of a longer interval are those of its two parts, one after the
other.
-/

namespace SignatureCache

/-! ### Bisection -/

section Bisection

variable {α : Type} {xs : Array α} {p q : α → Bool}

/-- Elements that pass the test come before those that fail it. -/
def PassesFirst (xs : Array α) (p : α → Bool) : Prop :=
  ∀ i j (hj : j < xs.size) (hij : i ≤ j), p xs[j] = true → p xs[i] = true

/-- Bisection keeps elements that pass before `lo` and elements that fail from `hi` on. -/
theorem lt_partitionBetween_iff (hp : PassesFirst xs p) {lo hi : Nat} (h : hi ≤ xs.size)
    (hle : lo ≤ hi) (hlo : ∀ i (hi : i < xs.size), i < lo → p xs[i] = true)
    (hhi : ∀ i (hi' : i < xs.size), hi ≤ i → p xs[i] = false) {i : Nat} (hi' : i < xs.size) :
    i < partitionBetween xs p lo hi h ↔ p xs[i] = true := by
  fun_induction partitionBetween xs p lo hi h with
  | case1 lo hi h hlt mid hmid hpass ih =>
    apply ih (by omega) _ hhi
    intro i hi' hlt
    exact hp i mid hmid (by omega) hpass
  | case2 lo hi h hlt mid hmid hfail ih =>
    apply ih (by omega) hlo
    intro i hi' hle
    rw [← Bool.not_eq_true]
    intro hpass
    exact hfail (hp mid i hi' hle hpass)
  | case3 lo hi h hlt =>
    obtain rfl : lo = hi := by omega
    constructor
    · exact hlo i hi'
    · intro hpass
      by_contra hge
      rw [hhi i hi' (by omega)] at hpass
      cases hpass

/-- The elements before the answer are those that pass. -/
theorem lt_partitionPoint_iff (hp : PassesFirst xs p) {i : Nat} (hi : i < xs.size) :
    i < partitionPoint xs p ↔ p xs[i] = true := by
  apply lt_partitionBetween_iff hp (Nat.le_refl _) (Nat.zero_le _)
  · intro i hi hlt
    omega
  · intro i hi hge
    omega

/-- A weaker test is passed at least as far. -/
theorem partitionPoint_le (hp : PassesFirst xs p) (hq : PassesFirst xs q)
    (hpq : ∀ x, p x = true → q x = true) : partitionPoint xs p ≤ partitionPoint xs q := by
  by_contra hlt
  have hsize : partitionPoint xs q < xs.size := by
    have := partitionPoint_le_size xs p
    omega
  have hpass := hpq _ ((lt_partitionPoint_iff hp hsize).1 (by omega))
  exact absurd ((lt_partitionPoint_iff hq hsize).2 hpass) (by omega)

end Bisection

/-- Elements that pass from one place up to another are what is between the two places. -/
theorem filter_eq_drop_take {α : Type} {xs : List α} {p : α → Bool} (first last : Nat)
    (h : ∀ i (hi : i < xs.length), p xs[i] = true ↔ first ≤ i ∧ i < last) :
    xs.filter p = (xs.take last).drop first := by
  induction xs generalizing first last with
  | nil => simp
  | cons x xs ih =>
    have hx : p x = true ↔ first ≤ 0 ∧ 0 < last := h 0 (by simp)
    have hrest := ih (first - 1) (last - 1) fun i hi => by
      have := h (i + 1) (by simpa using hi)
      rw [List.getElem_cons_succ] at this
      rw [this]
      omega
    cases last with
    | zero => simpa [hx] using hrest
    | succ last =>
      cases first with
      | zero => simpa [hx] using hrest
      | succ first => simpa [hx] using hrest

namespace Path

/-! ### Parameters in order -/

section InOrder

variable {K : Type} [Scalar K] [WeaklyOrdered K] {path : Path K} {a b c : K}

/-- The parameters of the path are numbers, and in order. -/
structure Sorted (path : Path K) : Prop where
  numbers : ∀ p ∈ path.parameters.toList, Scalar.IsNumber p
  inOrder : InOrder path.parameters.toList

theorem ofData?_sorted {width depth : Nat} {parameters values : List K}
    (h : ofData? width depth parameters values = .ok path) : path.Sorted := by
  obtain ⟨-, hfinite, hsorted, cutOff, hlength, -, rfl⟩ := ofData?_eq_ok_iff.1 h
  exact ⟨fun p hp => WeaklyOrdered.number_of_finite (hfinite p hp),
    (nonDecreasing_iff_of_finite hfinite).1 hsorted⟩

theorem passesFirst_less (h : path.Sorted) (bound : K) :
    PassesFirst path.parameters fun p => Scalar.less p bound := by
  intro i j hj hij hpass
  rcases Nat.lt_or_eq_of_le hij with hlt | rfl
  · have hle : Scalar.less path.parameters[j] path.parameters[i] = false :=
      List.pairwise_iff_getElem.1 h.inOrder i j (by simp; omega) (by simpa using hj) hlt
    have hnumber : Scalar.IsNumber path.parameters[i] := h.numbers _ (by simp)
    rcases WeaklyOrdered.less_or_less hnumber hpass with hless | hless
    · exact absurd (hle.symm.trans hless) Bool.false_ne_true
    · exact hless
  · exact hpass

theorem partitionPoint_less_le (h : path.Sorted) (hab : Scalar.atMost a b = true) :
    (partitionPoint path.parameters fun p => Scalar.less p a) ≤
      partitionPoint path.parameters fun p => Scalar.less p b := by
  obtain ⟨-, hb, hba⟩ := WeaklyOrdered.atMost_iff.1 hab
  apply partitionPoint_le (passesFirst_less h a) (passesFirst_less h b)
  intro p hp
  rcases WeaklyOrdered.less_or_less hb hp with hless | hless
  · exact hless
  · exact absurd (hba.symm.trans hless) Bool.false_ne_true

theorem selection_eq (h : path.Sorted) (hab : Scalar.atMost a b = true) :
    path.selection a b =
      (path.increments.extract (partitionPoint path.parameters fun p => Scalar.less p a)
        (partitionPoint path.parameters fun p => Scalar.less p b)).toList := by
  rw [selection, Nat.max_eq_right (partitionPoint_less_le h hab)]

/-- No increment is lost or used twice where an interval is cut. -/
theorem selection_append (h : path.Sorted) (hab : Scalar.atMost a b = true)
    (hbc : Scalar.atMost b c = true) :
    path.selection a b ++ path.selection b c = path.selection a c := by
  have hle := partitionPoint_less_le h hab
  have hle' := partitionPoint_less_le h hbc
  rw [selection_eq h hab, selection_eq h hbc, selection, Nat.max_eq_right (hle.trans hle'),
    ← Array.toList_append, Array.extract_append_extract, Nat.min_eq_left hle,
    Nat.max_eq_right hle']

end InOrder

/-! ### Log-signatures over the rationals -/

variable {path : Path ℚ} {a b c : ℚ}

theorem sorted_iff_pairwise : path.Sorted ↔ path.parameters.toList.Pairwise (· ≤ ·) := by
  have horder : InOrder path.parameters.toList ↔ path.parameters.toList.Pairwise (· ≤ ·) := by
    simp [InOrder, Scalar.less]
  exact ⟨fun h => horder.1 h.inOrder, fun h => ⟨fun _ _ => beq_self_eq_true _, horder.2 h⟩⟩

/-- A path built from data keeps the parameters, which never decrease. -/
theorem sorted_of_ofData? {width depth : Nat} {parameters values : List ℚ} {path : Path ℚ}
    (h : ofData? width depth parameters values = .ok path) :
    path.parameters.toList.Pairwise (· ≤ ·) :=
  sorted_iff_pairwise.1 (ofData?_sorted h)

/-- The log-signature over an interval is the product of those over the two parts it is cut into. -/
theorem logSignature_product (h : path.parameters.toList.Pairwise (· ≤ ·)) (hab : a ≤ b)
    (hbc : b ≤ c) :
    (path.logSignature a b).product? (path.logSignature b c) = .ok (path.logSignature a c) := by
  rw [logSignature, logSignature, logSignature, LieElement.Shaped.product?_eq,
    ← LieElement.Shaped.foldl_product_append,
    selection_append (sorted_iff_pairwise.2 h) (decide_eq_true hab) (decide_eq_true hbc)]

end Path

end SignatureCache
