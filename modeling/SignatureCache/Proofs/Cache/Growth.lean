import SignatureCache.Proofs.Cache.Shelves
import SignatureCache.Proofs.Cache.Steady
import SignatureCache.Proofs.DyadicInterval.Join
import SignatureCache.Proofs.Tree.Census
import SignatureCache.Source.Transcript

/-!
# How far a root grows

The loop that grows a root tests for containment and counts nothing, so how long it runs is a matter
of geometry: it goes up from the root to the first ancestor that contains the target, which is the
smallest interval around both. As halving an offset in range 52 times leaves nothing but its sign,
that ancestor is at most 52 levels above the coarser of the two. On the way no power leaves its word
as long as both lie in their hemisphere. Each step computes one value afresh and adds two nodes.
-/

namespace SignatureCache

open DyadicInterval SignatureCache.Tree

namespace DyadicInterval

variable {limit : Int} {I J : DyadicInterval}

/-- Intervals in range on one side of zero are contained in each other's ancestors from 52 levels
above both on. -/
theorem InRange.ancestor_contains (hI : InRange limit I) (hJ : InRange limit J)
    (side : SameSide I J) {n : Nat} (hn : 52 ≤ n) (hp : I.power - n + 52 ≤ J.power) :
    (I.ancestor n).contains J = true := by
  have hlevels : 52 ≤ (J.power - (I.ancestor n).power).toNat := by
    rw [ancestor_power]
    omega
  rw [contains_iff]
  refine ⟨?_, ?_⟩
  · rw [ancestor_power]
    omega
  · rw [shiftRight_eq_of_range hJ.offset_ge hJ.offset_lt hlevels]
    change _ = I.offset >>> n
    rw [shiftRight_eq_of_range hI.offset_ge hI.offset_lt hn]
    unfold SameSide at side
    simp only [side]

/-- The first ancestor that contains the target is at most 52 levels above both. -/
theorem InRange.steps_le (hI : InRange limit I) (hJ : InRange limit J) (side : SameSide I J)
    {steps : Nat} (hfirst : ∀ n < steps, (I.ancestor n).contains J = false) :
    (steps : Int) ≤ max 0 (I.power - J.power) + 52 := by
  by_contra hlt
  have hc := hI.ancestor_contains hJ side (n := (I.power - J.power).toNat + 52) (by omega) (by omega)
  rw [hfirst _ (by omega)] at hc
  cases hc

end DyadicInterval

variable {V : Type}

namespace Work

variable {source : Source V} {policy : Policy} {root I : DyadicInterval}
  {resolution limit : Int} {steps : Nat} {s s₁ s' : Store V}

/-! ### Steps of growth -/

/-- One step of growth: the parent of the root becomes the root. One value is computed afresh, that
of the root's sibling, and the sibling and the parent are the keys that are added. -/
structure GrowsOnce (source : Source V) (root : DyadicInterval) (s s' : Store V) : Prop where
  run : growRoot source root s = .ok () s'
  before : s.tree.root? = some root
  after : s'.tree.root? = some root.parent
  fresh : ∃ value, source.fresh s.tree.size root.sibling = .ok value ∧
    s'.tree.find? root.sibling = some ⟨value, root.power, some root.parent, some root⟩
  computations : s'.activity.freshComputations = s.activity.freshComputations + 1
  new : s.tree.contains root.sibling = false ∧ s.tree.contains root.parent = false
  keys : ∀ key, s'.tree.contains key = true ↔
    key = root.sibling ∨ key = root.parent ∨ s.tree.contains key = true
  size : s'.tree.size = s.tree.size + 2

/-- So many steps of growth, one after the other, the first of them from `root` on. -/
inductive Grows (source : Source V) : DyadicInterval → Nat → Store V → Store V → Prop
  | refl (root : DyadicInterval) (s : Store V) : Grows source root 0 s s
  | head {root : DyadicInterval} {steps : Nat} {s s₁ s' : Store V}
      (step : GrowsOnce source root s s₁) (rest : Grows source root.parent steps s₁ s') :
      Grows source root (steps + 1) s s'

/-- A root whose parent fits its words takes a step if the value of its sibling is not refused. -/
theorem growRoot_grows (combines : source.Combines) (h : s.tree.FullUnder root)
    (hp : root.parent? = .ok root.parent)
    (hv : ∃ value, source.fresh s.tree.size root.sibling = .ok value) :
    ∃ s', GrowsOnce source root s s' ∧ s'.tree.FullUnder root.parent := by
  obtain ⟨node, hnode⟩ := exists_find?_of_contains h.contains_root
  obtain ⟨neighbourValue, hv⟩ := hv
  obtain ⟨value, hc⟩ := combines s.tree.size node.value neighbourValue root.half
  have hrun := growRoot_run source h hnode
  simp only [hp, hv, hc] at hrun
  refine ⟨s.grown root node neighbourValue value, ?_, h.grown⟩
  constructor
  case run => exact hrun
  case before => exact h.root?_eq
  case after => exact h.grown.root?_eq
  case fresh => exact ⟨neighbourValue, hv, find?_grown_sibling⟩
  case computations => rfl
  case new => exact ⟨h.not_contains_sibling_root, h.not_contains_parent_root⟩
  case keys => exact fun key => h.contains_grown
  case size => exact h.size_grown hnode neighbourValue value

/-- The loop takes one step for each ancestor of the root that does not contain the target yet. -/
theorem growToContain_grows (combines : source.Combines) (side : SameSide root I)
    (h : s.tree.FullUnder root) (htop : (root.ancestor steps).contains I = true)
    (hfirst : ∀ n < steps, (root.ancestor n).contains I = false)
    (fits : ∀ n < steps, (root.ancestor n).parent? = .ok (root.ancestor n).parent)
    (fresh : ∀ n < steps, ∃ value,
      source.fresh (s.tree.size + 2 * n) (root.ancestor n).sibling = .ok value) :
    ∃ s', growToContain source root I side s = .ok (root.ancestor steps) s' ∧
      Grows source root steps s s' ∧ s'.tree.FullUnder (root.ancestor steps) := by
  induction steps generalizing root s with
  | zero =>
    rw [ancestor_zero] at htop ⊢
    refine ⟨s, ?_, .refl root s, h⟩
    rw [growToContain_done source side htop]
    rfl
  | succ steps ih =>
    have hout := hfirst 0 (by omega)
    have hp := fits 0 (by omega)
    have hv := fresh 0 (by omega)
    simp only [ancestor_zero, Nat.mul_zero, Nat.add_zero] at hout hp hv
    obtain ⟨s₁, hstep, hfull⟩ := growRoot_grows combines h hp hv
    -- What is known of the ancestors of the root is known of those of its parent.
    obtain ⟨s', hrun, hgrows, hfull'⟩ := ih side.parent hfull
      (by rwa [ancestor_parent])
      (fun n hn => by rw [ancestor_parent]; exact hfirst (n + 1) (by omega))
      (fun n hn => by rw [ancestor_parent]; exact fits (n + 1) (by omega))
      (fun n hn => by
        rw [ancestor_parent, hstep.size, show s.tree.size + 2 + 2 * n = s.tree.size + 2 * (n + 1) by
          omega]
        exact fresh (n + 1) (by omega))
    rw [ancestor_parent] at hrun hfull'
    refine ⟨s', ?_, .head hstep hgrows, hfull'⟩
    rw [growToContain_next source side hout, bind_of_ok hstep.run, hrun]

/-- On the way to a target in the root's hemisphere, all powers fit their words. -/
theorem fits_of_hemisphere (hlimit : limit ≤ 0x7fffffff) (hroot : InRange limit root)
    (hin : (hemisphere root).contains root = true) (hI : (hemisphere I).contains I = true)
    (side : SameSide root I) (hfirst : ∀ n < steps, (root.ancestor n).contains I = false) {n : Nat}
    (hn : n < steps) : (root.ancestor n).parent? = .ok (root.ancestor n).parent := by
  rw [← hemisphere_eq_of_sameSide side] at hI
  have hsteps := ancestor_least hfirst hin hI
  have hc := contains_trans hsteps (ancestor_contains_ancestor root hn.le)
  have hpower : -0x80000000 ≤ (hemisphere root).power := by
    change -0x80000000 ≤ lowestPower - 52
    decide
  apply (hroot.of_contains (contains_ancestor root n)).parent?_eq hlimit hc _ hpower
  intro heq
  simp [← heq, hfirst n hn] at hI

/-! ### The rest of the query -/

/-- A root that contains the interval stays the root. -/
theorem Move.fullUnder (hm : Move source I resolution s s') (h : s.tree.FullUnder root)
    (hc : root.contains I = true) : s'.tree.FullUnder root := by
  cases hm with
  | ask => exact h
  | hit => exact h
  | compute => exact h
  | plant hempty =>
    have hroot := h.contains_root
    simp [hempty] at hroot
  | grow hroot _ hout =>
    cases hroot.root?_eq.symm.trans h.root?_eq
    simp [hc] at hout
  | split hnode hl => exact (fullUnder_split source h (contains_of_find? hnode) hl _ _).1

theorem Moves.fullUnder (hm : Moves source I resolution s s') (h : s.tree.FullUnder root)
    (hc : root.contains I = true) : s'.tree.FullUnder root :=
  hm.keep (fun _ _ h hm => hm.fullUnder h hc) h

/-- What is left of a query once its interval is contained in the root. -/
def settle (policy : Policy) (source : Source V) (root I : DyadicInterval) (resolution : Int) :
    Work V V := do
  descend source root I
  sharpen policy source I resolution
  stored I

/-- An interval that is not cached is asked for, and the root grows before anything else. -/
theorem dyadicValue_grow (source : Source V) (hallow : policy.allowInterval I resolution = .ok ())
    (hno : s.tree.contains I = false) (h : s.tree.FullUnder root) :
    dyadicValue policy source I resolution s =
      (grow source root I >>= fun top => settle policy source top I resolution) s.asked := by
  have hreach := reach_root (s := s.asked) policy source I resolution h
  rw [dyadicValue_absent source hallow hno, bind_congr_run hreach]
  simp only [settle, bind_assoc]

/-- The root stays however the rest ends. -/
theorem settle_fullUnder (policy : Policy) (source : Source V) (resolution : Int)
    (h : s.tree.FullUnder root) (hc : root.contains I = true) :
    (final (settle policy source root I resolution) s).tree.FullUnder root := by
  apply Ends.final (P := fun s' => s'.tree.FullUnder root)
  refine Ends.bind ((descend_ends resolution h hc).mono (fun _ _ => id) ?_) ?_
  · rintro failure s' ⟨hm, -⟩
    exact hm.fullUnder h hc
  · rintro _ s₁ ⟨-, h₁, -⟩
    refine Ends.bind ((sharpen_moves policy h₁).mono (fun _ _ => id) ?_) ?_
    · rintro failure s' ⟨hm, -⟩
      exact hm.fullUnder h₁ hc
    · rintro _ s₂ ⟨hm, -⟩
      have h₂ := hm.fullUnder h₁ hc
      apply (stored_ends I s₂).mono
      · rintro value s' ⟨rfl, -⟩
        exact h₂
      · rintro failure s' rfl
        exact h₂

end Work

namespace Cache

open Work

variable {cache : Cache V} {requests : List (Request V)}

/-- Requests that are not too coarse leave every key in its hemisphere, whatever their sources. -/
theorem after_inHemispheres
    (lowest : ∀ request ∈ requests, ∀ I ∈ request.intervals cache.dissection,
      lowestPower ≤ I.power)
    (h : cache.store.Steady cache.policy.maxResolution)
    (inside : ∀ key, cache.store.tree.contains key = true → (hemisphere key).contains key = true) :
    ∀ key, (cache.after requests).store.tree.contains key = true →
      (hemisphere key).contains key = true := by
  refine (after_induction (P := fun s => s.Steady cache.policy.maxResolution ∧
    ∀ key, s.tree.contains key = true → (hemisphere key).contains key = true)
    (fun _ hs => hs.1.full) ?_ ⟨h, inside⟩).2
  rintro request hrequest I hI hallow s s' ⟨hs, hinside⟩ hm
  have hemi := hemisphere_contains_of_allowInterval hallow (lowest request hrequest I hI)
  exact ⟨hm.steady hallow hs, hm.inHemispheres hs.full hs.modest hemi hinside⟩

/-- After requests to an empty cache, answered or refused, of which none has broken off for want of
a comparison, suppose that an interval `T` is asked for that passes the checks and is not cached,
and that neither it nor the root `R`, or else nothing asked for before, is too coarse. Some interval
contains `R` and `T` exactly if both lie on one side of zero. If none does, the query is refused and
the tree is left as it is. If one does, there is a smallest one, at most 52 levels above the coarser
of the two, and unless a fresh value is refused, the root grows to it step by step, and stays there
however the rest of the query ends. All this is so unless growing, or the query, breaks off. -/
theorem growth_after_requests {τ : Type} [Shelf V τ] (policy : Policy) (dissection : Dissection)
    (requests : List (Request V)) (hlimit : policy.maxResolution ≤ 0x7fffffff)
    (compares : ({ policy, dissection } : Cache V τ).compares requests = true) :
    let cache := ({ policy, dissection } : Cache V τ).after requests
    let s := cache.plain.store
    ∀ R T resolution, s.tree.root? = some R → s.tree.contains T = false →
      policy.allowInterval T resolution = .ok () → lowestPower ≤ T.power →
      (lowestPower ≤ R.power ∨
        ∀ request ∈ requests, ∀ I ∈ request.intervals dissection, lowestPower ≤ I.power) →
      ((∃ K : DyadicInterval, K.contains R = true ∧ K.contains T = true) ↔
        (R.offset < 0 ↔ T.offset < 0)) ∧
      ((¬ ∃ K : DyadicInterval, K.contains R = true ∧ K.contains T = true) →
        ∀ source : Source V, cache.breaksOff ⟨source, .dyadic T, resolution⟩ = false →
          cache.outcome ⟨source, .dyadic T, resolution⟩ =
            (.error (.error (.rootUnreachable R T)), { cache.plain with store := s.asked })) ∧
      ((∃ K : DyadicInterval, K.contains R = true ∧ K.contains T = true) →
        ∃ (N : DyadicInterval) (steps : Nat), N.Spans [R, T] ∧
          (steps : Int) = R.power - N.power ∧ (steps : Int) ≤ max 0 (R.power - T.power) + 52 ∧
          ∀ source : Source V, source.Combines →
            (∀ n < steps, ∃ value,
              source.fresh (s.tree.size + 2 * n) (R.ancestor n).sibling = .ok value) →
            ∃ s', Grows source R steps s.asked s' ∧
              (Work.breaksOff (grow source R T) cache.store.asked = false →
                Work.outcome (grow source R T) cache.store.asked = .ok N s') ∧
              (cache.breaksOff ⟨source, .dyadic T, resolution⟩ = false →
                Work.outcome (dyadicValue policy source T resolution) cache.store =
                  settle policy source N T resolution s' ∧
                (cache.outcome ⟨source, .dyadic T, resolution⟩).2.store.tree.root? = some N)) := by
  intro cache s R T resolution hroot? hno hallow hT hcoarse
  have hplain : cache.plain = ({ policy, dissection } : Cache V).after requests := by
    rw [plain_after compares, plain_new]
  have hpolicy : cache.plain.policy = policy := by rw [plain_policy, after_policy]
  have h : s.Steady policy.maxResolution := by
    change cache.plain.store.Steady _
    rw [hplain]
    exact after_steady { policy, dissection } requests (steady_empty policy.maxResolution)
  obtain ⟨root, hroot⟩ := h.full.exists_fullUnder (root?_eq_some_iff.1 hroot?).1
  cases hroot.root?_eq.symm.trans hroot?
  have hR := h.inRange hroot.contains_root
  have hT' := inRange_of_allowInterval hallow (contains_self T) (le_max_right _ _)
  refine ⟨exists_contains_iff, ?_, ?_⟩
  · intro hnone source hbreak
    rw [exists_contains_iff] at hnone
    have hrun := dyadicValue_grow source hallow hno hroot
    rw [grow_unreachable source hnone, ← hpolicy] at hrun
    rw [outcome_eq hbreak]
    exact answer_dyadic_of_error hrun
  · intro hsome
    have side := exists_contains_iff.1 hsome
    obtain ⟨steps, htop, hfirst⟩ := exists_first_ancestor side
    have hin : (hemisphere R).contains R = true := by
      rcases hcoarse with hp | hall
      · exact hR.hemisphere_contains hp
      · have inside : ∀ key, cache.plain.store.tree.contains key = true →
            (hemisphere key).contains key = true := by
          rw [hplain]
          exact after_inHemispheres hall (steady_empty policy.maxResolution)
            (fun key hkey => by simp at hkey)
        exact inside R hroot.contains_root
    refine ⟨R.ancestor steps, steps, spans_ancestor htop hfirst, ?_,
      hR.steps_le hT' side hfirst, ?_⟩
    · rw [ancestor_power]
      omega
    · intro source combines fresh
      obtain ⟨s', hrun, hgrows, hfull⟩ := growToContain_grows (s := s.asked) combines
        side hroot htop hfirst (fun n => fits_of_hemisphere hlimit hR hin
          (hT'.hemisphere_contains hT) side hfirst) fresh
      rw [← grow_sameSide source side] at hrun
      have hvalue := dyadicValue_grow source hallow hno hroot
      rw [bind_of_ok hrun] at hvalue
      refine ⟨s', hgrows, ?_, ?_⟩
      · intro hbreak
        exact (Mirrors.outcome_eq (Mirrors.grow (.refl _ source) R T) hbreak).trans hrun
      · intro hbreak
        have hwork :
            Work.breaksOff (dyadicValue policy source T resolution) cache.store = false := by
          rw [breaksOff_eq] at hbreak
          rwa [after_policy] at hbreak
        refine ⟨(Mirrors.outcome_eq (Mirrors.dyadicValue (.refl _ source) policy T resolution)
          hwork).trans hvalue, ?_⟩
        have hlast := settle_fullUnder policy source resolution hfull htop
        rw [outcome_eq hbreak, answer_snd]
        change (final (dyadicValue cache.plain.policy source T resolution) s).tree.root? = _
        rw [hpolicy, final, hvalue]
        exact hlast.root?_eq

/-- From `[0, 1)` the root grows in two steps around `[3, 4)`, which is refused below, and it cannot
grow around `[-1, 0)`. -/
theorem growth_in_two_steps :
    let T : Transcript := ⟨"v", [], false, some [⟨6, 1⟩]⟩
    let earlier : List (Request String) := [⟨T.source, .dyadic ⟨0, 0⟩, 1⟩]
    let cache := ({} : IndexedCache String).after earlier
    let right : Request String := ⟨T.source, .dyadic ⟨3, 0⟩, 1⟩
    (∃ s', Work.outcome (grow T.source ⟨0, 0⟩ ⟨3, 0⟩) cache.store.asked = .ok ⟨0, -2⟩ s' ∧
      Grows T.source ⟨0, 0⟩ 2 cache.plain.store.asked s') ∧
    (cache.outcome right).1 = .error (.error (.computation ⟨6, 1⟩ "injected split")) ∧
    (cache.outcome right).2.store.tree.root? = some ⟨0, -2⟩ ∧
    (cache.outcome ⟨T.source, .dyadic ⟨-1, 0⟩, 1⟩).1 =
      .error (.error (.rootUnreachable ⟨0, 0⟩ ⟨-1, 0⟩)) := by
  intro T earlier
  dsimp only
  have hroot : (({} : IndexedCache String).after earlier).plain.store.tree.root? =
      some ⟨0, 0⟩ := by
    simp only [earlier, T]
    cbv
  have hno : (({} : IndexedCache String).after earlier).plain.store.tree.contains ⟨3, 0⟩ =
      false := by
    simp only [earlier, T]
    cbv
  have hno' : (({} : IndexedCache String).after earlier).plain.store.tree.contains ⟨-1, 0⟩ =
      false := by
    simp only [earlier, T]
    cbv
  have compares : ({} : IndexedCache String).compares earlier = true := by
    simp only [earlier, T]
    cbv
  have hgrowth := growth_after_requests {} Dissection.onGrid earlier (by decide) compares ⟨0, 0⟩
  obtain ⟨-, -, hreached⟩ := hgrowth ⟨3, 0⟩ 1 hroot hno (by rfl) (by decide) (.inl (by decide))
  obtain ⟨hiff, hrefused, -⟩ := hgrowth ⟨-1, 0⟩ 1 hroot hno' (by rfl) (by decide) (.inl (by decide))
  obtain ⟨N, steps, -, hsteps, -, hgrows⟩ := hreached ⟨⟨0, -2⟩, by decide, by decide⟩
  obtain ⟨s', hchain, hrun, hanswer⟩ := hgrows T.source (Transcript.combines T) (by
    intro n _
    exact ⟨_, rfl⟩)
  have hrun := hrun (by
    simp only [earlier, T]
    cbv)
  obtain ⟨-, hanswer⟩ := hanswer (by
    simp only [earlier, T]
    cbv)
  have hlast : ((({} : IndexedCache String).after earlier).outcome
      ⟨T.source, .dyadic ⟨3, 0⟩, 1⟩).2.store.tree.root? = some ⟨0, -2⟩ := by
    simp only [earlier, T]
    cbv
  cases hanswer.symm.trans hlast
  obtain rfl : steps = 2 := by
    simp only at hsteps
    omega
  refine ⟨⟨s', hrun, hchain⟩, ?_, hlast, ?_⟩
  · simp only [earlier, T]
    cbv
  · rw [hrefused (fun hsome => by simp [hiff] at hsome) T.source (by
      simp only [earlier, T]
      cbv)]

/-- A query for the interval 63 levels above the root ends at their comparison, and the root does
not grow, though the smallest interval around both is the one asked for. -/
theorem growth_broken_at_sign_bit :
    let T : Transcript := ⟨"v", [], false, none⟩
    let cache := ({} : IndexedCache String).after [⟨T.source, .dyadic ⟨0, 32⟩, 32⟩]
    let request : Request String := ⟨T.source, .dyadic ⟨0, -31⟩, -31⟩
    T.source.Combines ∧ (∀ nodes I, ∃ value, T.source.fresh nodes I = .ok value) ∧
    cache.plain.store.tree.root? = some ⟨0, 32⟩ ∧
    cache.plain.store.tree.contains ⟨0, -31⟩ = false ∧
    cache.plain.policy.allowInterval ⟨0, -31⟩ (-31) = .ok () ∧
    Spans ⟨0, -31⟩ [⟨0, 32⟩, ⟨0, -31⟩] ∧
    (cache.outcome request).1 = .error (.fault (.incomparable ⟨0, -31⟩ ⟨0, 32⟩)) ∧
    (cache.outcome request).2.store.tree.root? = some ⟨0, 32⟩ := by
  intro T
  dsimp only
  refine ⟨Transcript.combines T, fun _ _ => ⟨_, rfl⟩, ?_, ?_, ?_, ⟨by decide, ?_⟩, ?_, ?_⟩
  · simp only [T]
    cbv
  · simp only [T]
    cbv
  · rw [plain_policy, after_policy]
    rfl
  · exact fun K hK => hK _ (List.mem_cons_of_mem _ List.mem_cons_self)
  · simp only [T]
    cbv
  · simp only [T]
    cbv

end Cache

end SignatureCache
