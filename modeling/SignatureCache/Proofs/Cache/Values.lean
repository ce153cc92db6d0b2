import Mathlib
import SignatureCache.Proofs.Cache.Requests
import SignatureCache.Proofs.DyadicInterval.Span
import SignatureCache.Proofs.Dissection

/-!
# Exact sources

If a source only ever gives the values of one function of intervals, and combines the values of two
halves to that of the whole, the tree holds the values of that function however it has come about: a
root is combined with its neighbour in the order of the halves, and so is every parent that is
improved. So a query answers the function's value, and a query for a real interval the product of
the values of the grid cells.
-/

namespace SignatureCache

open DyadicInterval SignatureCache.Tree

variable {V : Type} {f : DyadicInterval → V}

/-- The source refuses or gives the values of `f`, and combines those of two halves, whichever is
first, to that of the whole. -/
structure Source.ExactFor (source : Source V) (f : DyadicInterval → V) : Prop where
  fresh : ∀ nodes I, (∃ error, source.fresh nodes I = .error error) ∨
    source.fresh nodes I = .ok (f I)
  split : ∀ nodes I, (∃ error, source.split nodes (f I) I.left I.right = .error error) ∨
    source.split nodes (f I) I.left I.right = .ok (f I.left, f I.right)
  left : ∀ nodes (I : DyadicInterval), source.combine nodes (f I.left) (f I.right) .left = .ok (f I)
  right : ∀ nodes (I : DyadicInterval), source.combine nodes (f I.right) (f I.left) .right = .ok (f I)

/-- The source has `zero` for no points, and multiplies runs of neighbours from left to right. -/
structure Source.MultipliesRuns (source : Source V) (mul : V → V → V) (zero : V) : Prop where
  zero_eq : ∀ nodes, source.zero nodes = zero
  left : ∀ nodes a b, source.combine nodes a b .left = .ok (mul a b)
  folds : source.Folds

/-- Every key has its value of `f`. -/
def Tree.Holds (t : Tree V) (f : DyadicInterval → V) : Prop :=
  ∀ key node, t.find? key = some node → node.value = f key

namespace Source.ExactFor

variable {source : Source V} {nodes : Nat} {I : DyadicInterval} {value : V}

theorem fresh_eq (h : source.ExactFor f) (hv : source.fresh nodes I = .ok value) :
    value = f I := by
  rcases h.fresh nodes I with ⟨error, hno⟩ | hok
  · cases hno.symm.trans hv
  · cases hok.symm.trans hv
    rfl

theorem split_eq {leftValue rightValue : V} (h : source.ExactFor f)
    (hv : source.split nodes (f I) I.left I.right = .ok (leftValue, rightValue)) :
    leftValue = f I.left ∧ rightValue = f I.right := by
  rcases h.split nodes I with ⟨error, hno⟩ | hok
  · cases hno.symm.trans hv
  · cases hok.symm.trans hv
    exact ⟨rfl, rfl⟩

/-- An interval and its sibling combine to their parent, in the order of the halves. -/
theorem combine_sibling (h : source.ExactFor f) (nodes : Nat) (I : DyadicInterval) :
    source.combine nodes (f I) (f I.sibling) I.half = .ok (f I.parent) := by
  rcases eq_left_or_eq_right I with heq | heq
  · rw [heq, sibling_left, half_left, parent_left]
    exact h.left nodes I.parent
  · rw [heq, sibling_right, half_right, parent_right]
    exact h.right nodes I.parent

theorem combine_eq (h : source.ExactFor f)
    (hv : source.combine nodes (f I) (f I.sibling) I.half = .ok value) : value = f I.parent := by
  cases hv.symm.trans (h.combine_sibling nodes I)
  rfl

end Source.ExactFor

/-! ### The source of the ends

The value of an interval is the pair of its ends, and two values are joined to the first left end
and the last right end: the joining is associative and not commutative.
-/

namespace Source

def join : Option (ℚ × ℚ) → Option (ℚ × ℚ) → Option (ℚ × ℚ)
  | none, y => y
  | some x, none => some x
  | some (lower, _), some (_, upper) => some (lower, upper)

theorem join_assoc (x y z : Option (ℚ × ℚ)) : join (join x y) z = join x (join y z) := by
  cases x <;> cases y <;> cases z <;> rfl

/-- The source of the pairs of ends. -/
def ofEnds : Source (Option (ℚ × ℚ)) where
  zero _ := none
  fresh _ I := .ok (some (I.lower, I.upper))
  combine _ x y half := .ok (match half with | .left => join x y | .right => join y x)
  split _ _ left right := .ok (some (left.lower, left.upper), some (right.lower, right.upper))

theorem ofEnds_multipliesRuns : ofEnds.MultipliesRuns join none where
  zero_eq _ := rfl
  left _ _ _ := rfl
  folds _ := rfl

theorem ofEnds_exactFor : ofEnds.ExactFor fun I => some (I.lower, I.upper) where
  fresh _ _ := .inr rfl
  split _ _ := .inr rfl
  left _ I := by simp [ofEnds, join]
  right _ I := by simp [ofEnds, join]

end Source

namespace Tree

variable {t : Tree V} {root leaf key : DyadicInterval} {node : Node V}

theorem Holds.put (h : t.Holds f) (hvalue : node.value = f key) : (t.put key node).Holds f := by
  intro other node' hnode
  rw [find?_put] at hnode
  split at hnode
  · next heq =>
    cases hnode
    exact heq ▸ hvalue
  · exact h other node' hnode

theorem Holds.halved (h : t.Holds f) :
    (t.halved leaf (f leaf.left) (f leaf.right)).Holds f :=
  (h.put rfl).put rfl

theorem Holds.grown (h : t.Holds f) (hnode : t.find? root = some node) :
    (t.grown root node (f root.sibling) (f root.parent)).Holds f :=
  ((h.put rfl).put rfl).put (h root node hnode)

end Tree

namespace Work

variable {source : Source V} {I : DyadicInterval} {resolution : Int} {s s' : Store V}

theorem Move.holds (hm : Move source I resolution s s') (exact : source.ExactFor f)
    (hfull : s.tree.Full) (h : s.tree.Holds f) : s'.tree.Holds f := by
  cases hm with
  | ask => exact h
  | hit => exact h
  | compute root => exact h
  | plant hempty hv => exact h.put (exact.fresh_eq hv)
  | @grow root node neighbourValue value hroot hside hout hnode hv hc =>
    have hvalue := h root node hnode
    cases exact.fresh_eq hv
    rw [hvalue] at hc
    cases exact.combine_eq hc
    exact h.grown hnode
  | @split leaf node leftValue rightValue hnode hl why hv =>
    have hleaf := contains_of_find? hnode
    obtain ⟨root, hroot⟩ := hfull.exists_fullUnder hleaf
    rw [h leaf node hnode] at hv
    obtain ⟨rfl, rfl⟩ := exact.split_eq hv
    refine (propagate_induction (P := fun s' => s'.tree.Holds f) ?_
      (hroot.halved hleaf hl _ _) h.halved (contains_halved.2 (.inl rfl))).2
    intro s' below b sib par value _ h' hf _ hc
    rw [h' below b hf.self, h' below.sibling sib hf.sibling] at hc
    exact h'.put (exact.combine_eq hc)

theorem dyadicValue_holds (policy : Policy) (exact : source.ExactFor f)
    (h : s.tree.Full ∧ s.tree.Holds f) :
    Ends (dyadicValue policy source I resolution) s
      (fun value s' => (s'.tree.Full ∧ s'.tree.Holds f) ∧ value = f I)
      (fun _ s' => s'.tree.Full ∧ s'.tree.Holds f) := by
  apply (dyadicValue_keeps (P := fun s => s.tree.Full ∧ s.tree.Holds f) policy (fun _ hs => hs.1)
    (fun _ _ _ hs hm => ⟨hm.full hs.1, hm.holds exact hs.1 hs.2⟩) h).mono
  · rintro value s' ⟨hs, node, hnode, rfl⟩
    exact ⟨hs, hs.2 I node hnode⟩
  · exact fun _ _ hs => hs

theorem combineAll_eq {mul : V → V → V} {zero : V} (h : source.MultipliesRuns mul zero)
    (nodes : Nat) (values : List V) :
    source.combineAll nodes values = .ok (values.foldl mul zero) := by
  rw [h.folds, h.zero_eq, runProduct]
  generalize zero = product
  induction values generalizing product with
  | nil => rfl
  | cons value values ih =>
    rw [List.foldlM_cons, h.left]
    exact ih (mul product value)

/-- A query for a real interval answers the product over its grid cells. -/
theorem realValue_product {mul : V → V → V} {zero : V} {I : RealInterval} {lo hi : Int}
    (policy : Policy) (exact : source.ExactFor f) (runs : source.MultipliesRuns mul zero)
    (assoc : ∀ a b c, mul (mul a b) c = mul a (mul b c)) (zero_mul : ∀ a, mul zero a = a)
    (hle : ¬ I.stop < I.start) (hlo : Dissection.gridPoint I.start resolution = .ok lo)
    (hhi : Dissection.gridPoint I.stop resolution = .ok hi)
    (h : s.tree.Full ∧ s.tree.Holds f) :
    Ends (realValue policy Dissection.onGrid source I resolution) s
      (fun value _ => value = Dissection.orderedProduct mul zero
        ((Dissection.cells lo (hi - lo).toNat resolution).map f))
      (fun _ _ => True) := by
  have halves : ∀ J : DyadicInterval, mul (f J.left) (f J.right) = f J := by
    intro J
    have hJ := exact.left 0 J
    rw [runs.left] at hJ
    exact Except.ok.inj hJ
  refine (realValue_ends (P := fun s => s.tree.Full ∧ s.tree.Holds f)
    (R := fun J value => value = f J) (F := fun _ => True) ?_ (fun _ => trivial)
    (fun _ _ _ _ => trivial) h).mono ?_ (fun _ _ _ => trivial)
  · intro pieces _ J _ s hs
    apply (dyadicValue_holds policy exact hs).mono
    · exact fun _ _ hend => hend
    · exact fun _ _ hend => ⟨hend, trivial⟩
  · rintro value s' ⟨-, ⟨hempty, rfl⟩ | ⟨pieces, values, hpieces, hvalues, hproduct⟩⟩
    · rw [Dissection.gridPoint_eq_of_isEmpty hempty hle hlo hhi, runs.zero_eq]
      simp [Dissection.cells, Dissection.orderedProduct]
    · rw [Dissection.onGrid_eq hlo hhi] at hpieces
      cases hpieces
      have heq : values = (Dissection.cover lo hi resolution).map f := by
        rw [← List.forall₂_eq_eq_eq, List.forall₂_map_right_iff]
        exact hvalues.flip
      rw [combineAll_eq runs, heq] at hproduct
      cases hproduct
      rw [← Dissection.foldl_eq_orderedProduct zero_mul]
      exact Dissection.foldl_coverFrom assoc halves lo (hi - lo).toNat resolution zero

end Work

namespace Cache

open Work

theorem new_holds (policy : Policy) (dissection : Dissection) :
    let cache : Cache V := { policy, dissection }
    cache.store.tree.Full ∧ cache.store.tree.Holds f := by
  refine ⟨.inl rfl, ?_⟩
  intro key node hnode
  exact absurd hnode (by simp)

theorem after_holds {cache : Cache V} {requests : List (Request V)}
    (exact : ∀ request ∈ requests, request.source.ExactFor f)
    (h : cache.store.tree.Full ∧ cache.store.tree.Holds f) :
    (cache.after requests).store.tree.Full ∧ (cache.after requests).store.tree.Holds f := by
  apply after_induction (P := fun s => s.tree.Full ∧ s.tree.Holds f) (fun _ hs => hs.1) _ h
  rintro request hrequest _ _ _ s s' hs hm
  exact ⟨hm.full hs.1, hm.holds (exact request hrequest) hs.1 hs.2⟩

theorem answer_of_ends {cache : Cache V} {source : Source V} (query : Query) {resolution : Int}
    {value : V} {Q : V → Store V → Prop} {E : Failure → Store V → Prop}
    (hends : Ends (Work.answer cache.policy cache.dissection source query resolution) cache.store
      Q E)
    (hvalue : (cache.answer source query resolution).1 = .ok value) : ∃ s, Q value s := by
  rw [answer] at hvalue
  unfold Ends at hends
  split at hvalue
  · next value' s hrun =>
    rw [hrun] at hends
    cases hvalue
    exact ⟨s, hends⟩
  · cases hvalue

/-- After any requests from sources that are exact for one function, every key has its value. A
query that is answered then answers the function's value, and a real query on the grid the product
of the values of the cells of its range in order, whatever was cached before. -/
theorem values_after_requests (f : DyadicInterval → V) (policy : Policy) (dissection : Dissection)
    (requests : List (Request V)) (exact : ∀ request ∈ requests, request.source.ExactFor f) :
    let cache := ({ policy, dissection } : Cache V).after requests
    (∀ key node, cache.store.tree.find? key = some node → node.value = f key) ∧
    (∀ source : Source V, source.ExactFor f → ∀ I resolution value,
      (cache.answer source (.dyadic I) resolution).1 = .ok value → value = f I) ∧
    (dissection = Dissection.onGrid →
      ∀ (source : Source V) (mul : V → V → V) (zero : V), source.ExactFor f →
      source.MultipliesRuns mul zero →
      (∀ a b c, mul (mul a b) c = mul a (mul b c)) → (∀ a, mul zero a = a) →
      ∀ (I : RealInterval) resolution lo hi value, ¬ I.stop < I.start →
      Dissection.gridPoint I.start resolution = .ok lo →
      Dissection.gridPoint I.stop resolution = .ok hi →
      (cache.answer source (.real I) resolution).1 = .ok value →
      value = Dissection.orderedProduct mul zero
        ((Dissection.cells lo (hi - lo).toNat resolution).map f)) := by
  intro cache
  have h : cache.store.tree.Full ∧ cache.store.tree.Holds f :=
    after_holds exact (new_holds policy dissection)
  refine ⟨h.2, ?_, ?_⟩
  · intro source hsource I resolution value hvalue
    have hends : Ends (dyadicValue cache.policy source I resolution) cache.store _ _ :=
      dyadicValue_holds cache.policy hsource h
    obtain ⟨s, -, heq⟩ := answer_of_ends (.dyadic I) hends hvalue
    exact heq
  · intro hgrid source mul zero hsource runs assoc zero_mul I resolution lo hi value hle hlo hhi
      hvalue
    have hdissection : cache.dissection = Dissection.onGrid :=
      (after_dissection _ requests).trans hgrid
    have hends := realValue_product cache.policy hsource runs assoc zero_mul hle hlo hhi h
    rw [← hdissection] at hends
    obtain ⟨s, heq⟩ := answer_of_ends (.real I) hends hvalue
    exact heq

/-- After two queries that grow the root to the left, the ends of `[1/2, 2)`, which is cut into
pieces of two levels, come out in order. -/
theorem values_after_growth :
    let I : RealInterval :=
      ⟨Float.ofBits 0x3fe0000000000000, Float.ofBits 0x4000000000000000⟩
    let cache := ({} : Cache (Option (ℚ × ℚ))).after
      [⟨Source.ofEnds, .dyadic ⟨1, 0⟩, 1⟩, ⟨Source.ofEnds, .dyadic ⟨0, -1⟩, 0⟩]
    (cache.answer Source.ofEnds (.real I) 1).1 = .ok (some (1 / 2, 2)) ∧
      some (1 / 2, 2) = Dissection.orderedProduct Source.join none
        ((Dissection.cells 1 3 1).map fun I => some (I.lower, I.upper)) := by
  dsimp only
  have exact : ∀ request ∈ ([⟨Source.ofEnds, .dyadic ⟨1, 0⟩, 1⟩,
      ⟨Source.ofEnds, .dyadic ⟨0, -1⟩, 0⟩] : List (Request (Option (ℚ × ℚ)))),
      request.source.ExactFor fun I => some (I.lower, I.upper) := by
    intro request hrequest
    simp only [List.mem_cons, List.not_mem_nil, or_false] at hrequest
    rcases hrequest with rfl | rfl
    · exact Source.ofEnds_exactFor
    · exact Source.ofEnds_exactFor
  generalize hI : RealInterval.mk (Float.ofBits 0x3fe0000000000000)
    (Float.ofBits 0x4000000000000000) = I
  have hle : ¬ I.stop < I.start := by
    subst hI
    decide
  have hempty : I.isEmpty = false := by
    subst hI
    decide
  have hlo : Dissection.gridPoint I.start 1 = .ok 1 := by
    subst hI
    rfl
  have hhi : Dissection.gridPoint I.stop 1 = .ok 4 := by
    subst hI
    rfl
  have hpieces : Dissection.onGrid I 1 = .ok [⟨1, 1⟩, ⟨1, 0⟩] :=
    (Dissection.onGrid_eq hlo hhi).trans (by cbv)
  have hvalue : ((({} : Cache (Option (ℚ × ℚ))).after
      [⟨Source.ofEnds, .dyadic ⟨1, 0⟩, 1⟩, ⟨Source.ofEnds, .dyadic ⟨0, -1⟩, 0⟩]).answer
      Source.ofEnds (.real I) 1).1 = .ok (some (1 / 2, 2)) := by
    simp only [answer, Work.answer, after_dissection, realValue, hempty, hpieces]
    cbv
  exact ⟨hvalue, (values_after_requests _ {} Dissection.onGrid _ exact).2.2 rfl _ _ _
    Source.ofEnds_exactFor Source.ofEnds_multipliesRuns Source.join_assoc (fun _ => rfl) I 1 1 4 _
    hle hlo hhi hvalue⟩

end Cache

end SignatureCache
