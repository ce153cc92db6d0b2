import Mathlib.Tactic.FieldSimp
import SignatureCache.Path.Source
import SignatureCache.Proofs.Cache.Values
import SignatureCache.Proofs.Path.Selection

/-!
# Exact paths as sources

Over the rationals a path keeps every promise that a cache asks of its source. The ends of a dyadic
interval are exact, its halves cut it at its middle, and so the log-signatures over the halves make
up the one over the interval. A path whose halves are computed from its own increments is therefore
an exact source: whatever is asked of a cache, every node holds the log-signature over its interval.
-/

namespace SignatureCache

namespace DyadicInterval

theorem start_eq_lower (I : DyadicInterval) : (I.start : ℚ) = I.lower := by
  change (I.offset : ℚ) / 2 ^ I.power = I.offset * 2 ^ (-I.power)
  rw [zpow_neg, div_eq_mul_inv]

theorem stop_eq_upper (I : DyadicInterval) : (I.stop : ℚ) = I.upper := by
  change ((I.offset : ℚ) + 1) / 2 ^ I.power = I.offset * 2 ^ (-I.power) + 2 ^ (-I.power)
  rw [zpow_neg, div_eq_mul_inv, add_one_mul]

end DyadicInterval

namespace Path

open DyadicInterval

/-- The log-signature over a dyadic interval, taken from the increments. -/
def direct (path : Path ℚ) (I : DyadicInterval) : LieElement ℚ :=
  path.logSignature I.start I.stop

variable {path : Path ℚ}

theorem direct_halves (h : path.parameters.toList.Pairwise (· ≤ ·)) (I : DyadicInterval) :
    (path.direct I.left).product? (path.direct I.right) = .ok (path.direct I) := by
  have hleft : I.lower ≤ I.right.lower := by
    have := I.left.lower_lt_upper.le
    rwa [lower_left, upper_left] at this
  have hright : I.right.lower ≤ I.upper := by
    have := I.right.lower_lt_upper.le
    rwa [upper_right] at this
  simp only [direct, start_eq_lower, stop_eq_upper, lower_left, upper_left, upper_right]
  exact logSignature_product h hleft hright

/-- A path whose halves are computed from its increments is exact for its log-signatures. -/
theorem source_exactFor (h : path.parameters.toList.Pairwise (· ≤ ·)) (hexact : path.exact = true) :
    path.source.ExactFor path.direct where
  fresh _ _ := .inr rfl
  split _ I := by
    right
    simp only [source, hexact]
    rfl
  left _ := direct_halves h
  right _ := direct_halves h

/-- Over the rationals the elements of an algebra are a monoid in which halves make up the whole, a
path's log-signatures over neighbouring intervals multiply, those over the halves of a dyadic
interval in particular, and a cache that only an exact path is asked through stores the
log-signature over every one of its keys. -/
theorem recombines_over_rationals :
    (∀ (width : Nat) (depth : Depth) (x y z : LieElement.Shaped ℚ width depth),
      x.val.product? y.val = .ok (x.product y).val ∧
      (x.product y).product z = x.product (y.product z) ∧
      LieElement.Shaped.zero.product x = x ∧ x.product LieElement.Shaped.zero = x ∧
      x.val.halved.product? x.val.halved = .ok x.val) ∧
    (∀ (path : Path ℚ) (nodes : Nat) (x y : LieElement ℚ),
      path.source.combine nodes y x .right = path.source.combine nodes x y .left ∧
      path.source.combine nodes x y .left = x.product? y) ∧
    (∀ (width depth : Nat) (parameters values : List ℚ) (path : Path ℚ),
      ofData? width depth parameters values = .ok path → ∀ exact : Bool,
      let path := { path with exact }
      (∀ a b c, a ≤ b → b ≤ c →
        (path.logSignature a b).product? (path.logSignature b c) = .ok (path.logSignature a c)) ∧
      (∀ nodes I, path.source.fresh nodes I = .ok (path.logSignature I.start I.stop)) ∧
      (∀ I : DyadicInterval,
        (path.logSignature I.left.start I.left.stop).product?
          (path.logSignature I.right.start I.right.stop) =
            .ok (path.logSignature I.start I.stop)) ∧
      (exact = true → ∀ (policy : Policy) (dissection : Dissection)
        (requests : List (Request (LieElement ℚ))),
        (∀ request ∈ requests, request.source = path.source) →
        ∀ key node,
          (({ policy, dissection } : Cache (LieElement ℚ)).after requests).store.tree.find? key =
            some node →
          node.value = path.logSignature key.start key.stop)) := by
  refine ⟨?_, ?_, ?_⟩
  · intro width depth x y z
    exact ⟨x.product?_eq y, x.product_assoc y z, x.zero_product, x.product_zero,
      x.val.product?_halved⟩
  · exact fun path nodes x y => ⟨rfl, rfl⟩
  · intro width depth parameters values built hbuilt exact path
    have hbuilt := sorted_of_ofData? hbuilt
    have hsorted : path.parameters.toList.Pairwise (· ≤ ·) := hbuilt
    refine ⟨?_, ?_, direct_halves hsorted, ?_⟩
    · intro a b c hab hbc
      exact logSignature_product hsorted hab hbc
    · exact fun nodes I => rfl
    · intro hexact policy dissection requests hrequests
      have hsources : ∀ request ∈ requests, request.source.ExactFor path.direct := by
        intro request hrequest
        rw [hrequests request hrequest]
        exact source_exactFor hsorted hexact
      exact (Cache.after_holds hsources (Cache.new_holds policy dissection)).2

/-- A step along each of two letters, at `0` and at `1/2`. -/
def twoSteps : Path ℚ where
  width := 2
  depth := .two
  parameters := #[0, 1 / 2]
  increments := #[.ofLetters [1, 0] rfl, .ofLetters [0, 1] rfl]
  exact := false

/-- Cut between its steps, a path of two steps has their product, with the bracket halved, as its
log-signature; a cache asked about `[0, 1)` and `[1, 2)` stores it over `[0, 2)`. -/
theorem two_steps_recombine :
    let path := { twoSteps with exact := true }
    let whole : LieElement ℚ := ⟨.two, [1, 1], [1 / 2], rfl⟩
    let requests : List (Request (LieElement ℚ)) :=
      [⟨path.source, .dyadic ⟨0, 0⟩, 1⟩, ⟨path.source, .dyadic ⟨1, 0⟩, 0⟩]
    ofData? 2 2 [0, 1 / 2] [1, 0, 0, 1] = .ok twoSteps ∧
    (path.logSignature 0 (1 / 2)).product? (path.logSignature (1 / 2) 1) =
      .ok (path.logSignature 0 1) ∧
    path.logSignature 0 1 = whole ∧
    ∃ node, (({} : Cache (LieElement ℚ)).after requests).store.tree.find? ⟨0, -1⟩ = some node ∧
      node.value = whole ∧
      node.value = path.logSignature (start ⟨0, -1⟩) (stop ⟨0, -1⟩) := by
  intro path whole requests
  have hbuilt : ofData? 2 2 [0, 1 / 2] [1, 0, 0, 1] = .ok twoSteps := by cbv
  obtain ⟨hproduct, -, -, hcached⟩ :=
    recombines_over_rationals.2.2 2 2 [0, 1 / 2] [1, 0, 0, 1] twoSteps hbuilt true
  have hwhole : path.logSignature 0 1 = whole := by
    simp only [path, whole]
    cbv
  have hstored : ((({} : Cache (LieElement ℚ)).after requests).store.tree.find? ⟨0, -1⟩).map
      Node.value = some whole := by
    simp only [path, whole, requests]
    cbv
  obtain ⟨node, hnode, hvalue⟩ := Option.map_eq_some_iff.1 hstored
  refine ⟨hbuilt, hproduct 0 (1 / 2) 1 (by norm_num) (by norm_num), hwhole, node, hnode, hvalue, ?_⟩
  apply hcached rfl {} Dissection.onGrid requests _ ⟨0, -1⟩ node hnode
  intro request hrequest
  simp only [requests, List.mem_cons, List.not_mem_nil, or_false] at hrequest
  rcases hrequest with rfl | rfl
  · rfl
  · rfl

end Path

end SignatureCache
