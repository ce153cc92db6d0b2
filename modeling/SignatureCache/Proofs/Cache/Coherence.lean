import Mathlib
import SignatureCache.Proofs.Cache.Deeds
import SignatureCache.Proofs.Cache.Freshness

/-!
# Coherent splits

If the halves that a value is split into always make up the value again, combining changes nothing:
every key with halves has the product of their values from the moment it has them, a propagation
sets the value that is there already, and so no value changes once it is stored. An interval is then
answered with one value whatever the resolution, however coarse or fine the tree is at the time.
-/

namespace SignatureCache

open DyadicInterval SignatureCache.Tree

variable {V : Type}

/-- The source combines by `mul`, and the halves it splits a value into make up the value. -/
structure Source.Recombines (source : Source V) (mul : V → V → V) : Prop
    extends source.Multiplies mul where
  whole : ∀ nodes value left right leftValue rightValue,
    source.split nodes value left right = .ok (leftValue, rightValue) →
      mul leftValue rightValue = value

namespace Tree

/-- The value of a cached interval. -/
def value? (t : Tree V) (key : DyadicInterval) : Option V :=
  (t.find? key).map Node.value

/-- Every key with halves has the product of their values. -/
def Coherent (mul : V → V → V) (t : Tree V) : Prop :=
  ∀ key value left right, t.value? key = some value → t.value? key.left = some left →
    t.value? key.right = some right → value = mul left right

/-- The second tree has all the values that the first one has. -/
def Retains (t t' : Tree V) : Prop :=
  ∀ key value, t.value? key = some value → t'.value? key = some value

variable {mul : V → V → V} {t t' t'' : Tree V} {root leaf key below : DyadicInterval}
  {node : Node V}

theorem value?_of_find? (h : t.find? key = some node) : t.value? key = some node.value := by
  rw [value?, h, Option.map_some]

theorem value?_congr (h : t'.find? key = t.find? key) : t'.value? key = t.value? key := by
  rw [value?, h, value?]

theorem contains_of_value? {value : V} (h : t.value? key = some value) :
    t.contains key = true := by
  obtain ⟨node, hnode, -⟩ := Option.map_eq_some_iff.1 h
  exact contains_of_find? hnode

theorem value?_put (t : Tree V) (key other : DyadicInterval) (node : Node V) :
    (t.put key node).value? other = if key = other then some node.value else t.value? other := by
  rw [value?, value?, find?_put]
  split
  · rfl
  · rfl

theorem Retains.refl (t : Tree V) : t.Retains t :=
  fun _ _ h => h

theorem Retains.trans (h : t.Retains t') (h' : t'.Retains t'') : t.Retains t'' :=
  fun key value hvalue => h' key value (h key value hvalue)

theorem retains_of_eq (h : ∀ key, t'.value? key = t.value? key) : t.Retains t' := by
  intro key value hvalue
  rwa [h]

/-- Only the values count. -/
theorem Coherent.congr (h : t.Coherent mul) (heq : ∀ key, t'.value? key = t.value? key) :
    t'.Coherent mul := by
  intro key value left right hvalue hl hr
  rw [heq] at hvalue hl hr
  exact h key value left right hvalue hl hr

theorem coherent_empty (mul : V → V → V) : (empty : Tree V).Coherent mul := by
  intro key value left right hvalue
  simp [value?] at hvalue

/-! ### The edits -/

theorem coherent_plant (mul : V → V → V) (I : DyadicInterval) (node : Node V) :
    ((empty : Tree V).put I node).Coherent mul := by
  intro key value left right hvalue hl
  have hkey := contains_of_value? hvalue
  have hleft := contains_of_value? hl
  rw [contains_put, contains_empty, Bool.or_false, decide_eq_true_eq] at hkey
  rw [← hkey, not_contains_left_plant] at hleft
  cases hleft

theorem FullUnder.retains_halved {leftValue rightValue : V} (h : t.FullUnder root)
    (hleaf : t.contains leaf = true) (hl : t.contains leaf.left = false) :
    t.Retains (t.halved leaf leftValue rightValue) := by
  intro key value hvalue
  rwa [value?_congr (h.find?_halved hleaf hl (contains_of_value? hvalue))]

/-- A leaf is given two halves that make it up. -/
theorem Coherent.halved {leftValue rightValue : V} (hc : t.Coherent mul) (h : t.FullUnder root)
    (hnode : t.find? leaf = some node) (hl : t.contains leaf.left = false)
    (whole : mul leftValue rightValue = node.value) :
    (t.halved leaf leftValue rightValue).Coherent mul := by
  have hleaf := contains_of_find? hnode
  have hnone : ∀ {half value}, leaf.contains half = true → half.power = leaf.power + 1 →
      (t.halved leaf leftValue rightValue).value? half.left ≠ some value := by
    intro half value hhalf hp hvalue
    have hno := h.not_contains_left_half hleaf hl hhalf hp leftValue rightValue
    rw [contains_of_value? hvalue] at hno
    cases hno
  intro key value left right hvalue hleft hright
  rcases contains_halved.1 (contains_of_value? hvalue) with rfl | rfl | hkey
  · exact absurd hleft (hnone (contains_left leaf) rfl)
  · exact absurd hleft (hnone (contains_right leaf) rfl)
  · rw [value?_congr (h.find?_halved hleaf hl hkey)] at hvalue
    by_cases heq : key = leaf
    · subst heq
      rw [value?_of_find? find?_halved_left] at hleft
      rw [value?_of_find? find?_halved_right] at hright
      rw [value?_of_find? hnode] at hvalue
      cases hleft
      cases hright
      cases hvalue
      exact whole.symm
    · obtain ⟨hL, hR⟩ := t.find?_halved_halves leftValue rightValue heq
      rw [value?_congr hL] at hleft
      rw [value?_congr hR] at hright
      exact hc key value left right hvalue hleft hright

/-- The values of a key and its sibling, told apart as the halves of the parent. -/
theorem exists_halves_values {source : Source V} {b sib : V} (h : source.Multiplies mul)
    (hb : t.value? below = some b) (hs : t.value? below.sibling = some sib) :
    ∃ left right, t.value? below.parent.left = some left ∧
      t.value? below.parent.right = some right ∧
      ∀ nodes value, source.combine nodes b sib below.half = .ok value → value = mul left right := by
  cases hh : below.half with
  | left =>
    have heq := eq_left_of_half hh
    rw [heq, sibling_left] at hs
    rw [heq] at hb
    refine ⟨b, sib, hb, hs, ?_⟩
    intro nodes value hc
    rw [h.left] at hc
    exact (Except.ok.inj hc).symm
  | right =>
    have heq := eq_right_of_half hh
    rw [heq, sibling_right] at hs
    rw [heq] at hb
    refine ⟨sib, b, hs, hb, ?_⟩
    intro nodes value hc
    rw [h.right] at hc
    exact (Except.ok.inj hc).symm

theorem FullUnder.value?_grown {neighbourValue value : V} (h : t.FullUnder root)
    (hnode : t.find? root = some node) (hkey : t.contains key = true) :
    (t.grown root node neighbourValue value).value? key = t.value? key := by
  by_cases heq : key = root
  · subst heq
    rw [value?_of_find? find?_grown_root, value?_of_find? hnode]
    rfl
  · exact value?_congr (h.find?_grown hkey heq)

theorem FullUnder.retains_grown {neighbourValue value : V} (h : t.FullUnder root)
    (hnode : t.find? root = some node) :
    t.Retains (t.grown root node neighbourValue value) := by
  intro key old hvalue
  rwa [h.value?_grown hnode (contains_of_value? hvalue)]

theorem Coherent.grown {source : Source V} {nodes : Nat} {neighbourValue value : V}
    (hc : t.Coherent mul) (hmul : source.Multiplies mul) (h : t.FullUnder root)
    (hnode : t.find? root = some node)
    (hcombine : source.combine nodes node.value neighbourValue root.half = .ok value) :
    (t.grown root node neighbourValue value).Coherent mul := by
  intro key old left right hvalue hleft hright
  rcases h.contains_grown.1 (contains_of_value? hvalue) with rfl | rfl | hkey
  · have hno := h.not_contains_left_grown_sibling node neighbourValue value
    rw [contains_of_value? hleft] at hno
    cases hno
  · obtain ⟨l, r, hl, hr, hproduct⟩ := exists_halves_values hmul
      (value?_of_find? (t := t.grown root node neighbourValue value) find?_grown_root)
      (value?_of_find? find?_grown_sibling)
    rw [value?_of_find? find?_grown_parent] at hvalue
    cases hvalue
    cases hl.symm.trans hleft
    cases hr.symm.trans hright
    exact hproduct _ _ hcombine
  · obtain ⟨hL, hR⟩ := h.find?_grown_halves hkey node neighbourValue value
    rw [h.value?_grown hnode hkey] at hvalue
    rw [value?_congr hL] at hleft
    rw [value?_congr hR] at hright
    exact hc key old left right hvalue hleft hright

end Tree

namespace Work

variable {mul : V → V → V} {source : Source V} {I root below : DyadicInterval} {resolution : Int}
  {s s' : Store V}

/-- The tree is full and coherent, and has the values that another one has. -/
structure Unmoved (mul : V → V → V) (root : DyadicInterval) (t : Tree V) (s : Store V) : Prop where
  full : s.tree.FullUnder root
  coherent : s.tree.Coherent mul
  value?_eq : ∀ key, s.tree.value? key = t.value? key

/-- What is combined anew is what is there already. -/
theorem Keeps.improveParent {t : Tree V} (hmul : source.Multiplies mul) (below : DyadicInterval) :
    Keeps (Unmoved mul root t) (improveParent source below) := by
  intro s h
  rcases improveParent_cases source h.full below with hrun | ⟨b, sib, fault, -, -, -, hrun⟩ |
    ⟨b, sib, par, value, hf, -, hc, hrun⟩
  · rwa [ends_of_ok hrun]
  · rwa [ends_of_error hrun]
  · rw [ends_of_ok hrun]
    have hpar := value?_of_find? hf.parent
    obtain ⟨l, r, hl, hr, hproduct⟩ := exists_halves_values hmul (value?_of_find? hf.self)
      (value?_of_find? hf.sibling)
    have hvalue : value = par.value :=
      (hproduct _ value hc).trans (h.coherent _ _ _ _ hpar hl hr).symm
    have hsame : ∀ key, (s.improved below par value (min b.accuracy sib.accuracy)).tree.value? key =
        s.tree.value? key := by
      intro key
      rw [Store.improved, value?_put]
      split
      · next heq =>
        rw [← heq, hpar, ← hvalue]
        rfl
      · rfl
    exact ⟨fullUnder_improved h.full hf value _, h.coherent.congr hsame,
      fun key => (hsame key).trans (h.value?_eq key)⟩

/-- However far a propagation gets, it changes no value. -/
theorem Keeps.propagateLevels {t : Tree V} (hmul : source.Multiplies mul) (levels : Nat)
    (below : DyadicInterval) :
    Keeps (Unmoved mul root t) (propagateLevels source levels below) := by
  induction levels generalizing below with
  | zero => exact .throw _
  | succ levels ih =>
    refine .bind (.improveParent hmul below) fun parent? => ?_
    cases parent? with
    | none => exact .pure ()
    | some parent => exact ih parent

theorem Keeps.propagate {t : Tree V} (hmul : source.Multiplies mul) (below : DyadicInterval) :
    Keeps (Unmoved mul root t) (propagate source below) := by
  refine .bind .tree fun t => ?_
  cases t.root? with
  | none => exact .pure ()
  | some root => exact .propagateLevels hmul _ below

theorem Move.coherent (hm : Move source I resolution s s') (hsource : source.Recombines mul)
    (h : s.tree.Full) (hc : s.tree.Coherent mul) :
    s'.tree.Coherent mul ∧ s.tree.Retains s'.tree := by
  cases hm with
  | ask => exact ⟨hc, .refl _⟩
  | hit => exact ⟨hc, .refl _⟩
  | compute => exact ⟨hc, .refl _⟩
  | plant hempty =>
    rw [Store.planted, hempty]
    refine ⟨coherent_plant mul I _, ?_⟩
    intro key value hvalue
    simp [value?] at hvalue
  | grow hroot _ _ hnode _ hcombine =>
    exact ⟨hc.grown hsource.toMultiplies hroot hnode hcombine, hroot.retains_grown hnode⟩
  | @split leaf node leftValue rightValue hnode hl _ hv =>
    have hleaf := contains_of_find? hnode
    obtain ⟨root, hroot⟩ := h.exists_fullUnder hleaf
    have hhalved := hc.halved hroot hnode hl (hsource.whole _ _ _ _ _ _ hv)
    have hend : Unmoved mul root (s.tree.halved leaf leftValue rightValue)
        (final (propagate source leaf.left) (s.halved leaf leftValue rightValue)) :=
      (Keeps.propagate hsource.toMultiplies leaf.left (s.halved leaf leftValue rightValue)
        ⟨hroot.halved hleaf hl leftValue rightValue, hhalved, fun _ => rfl⟩).final
    exact ⟨hend.coherent, (hroot.retains_halved hleaf hl).trans (retains_of_eq hend.value?_eq)⟩

theorem Moves.coherent (hm : Moves source I resolution s s') (hsource : source.Recombines mul)
    (h : s.tree.Full) (hc : s.tree.Coherent mul) :
    s'.tree.Coherent mul ∧ s.tree.Retains s'.tree := by
  refine (hm.keep (P := fun s' => s'.tree.Full ∧ s'.tree.Coherent mul ∧ s.tree.Retains s'.tree) ?_
    ⟨h, hc, .refl _⟩).2
  rintro s₁ s₂ ⟨hfull, hc₁, hr₁⟩ hm
  obtain ⟨hc₂, hr₂⟩ := hm.coherent hsource hfull hc₁
  exact ⟨hm.full hfull, hc₂, hr₁.trans hr₂⟩

end Work

namespace Cache

open Work

variable {mul : V → V → V} {cache cache' : Cache V} {requests : List (Request V)}
  {source : Source V}

theorem after_coherent (sources : ∀ request ∈ requests, request.source.Recombines mul)
    (h : cache.store.tree.Full) (hc : cache.store.tree.Coherent mul) :
    (cache.after requests).store.tree.Full ∧ (cache.after requests).store.tree.Coherent mul ∧
      cache.store.tree.Retains (cache.after requests).store.tree := by
  refine after_induction (P := fun s => s.tree.Full ∧ s.tree.Coherent mul ∧
    cache.store.tree.Retains s.tree) (fun _ hs => hs.1) ?_ ⟨h, hc, .refl _⟩
  rintro request hrequest I - - s s' ⟨hfull, hc, hr⟩ hm
  obtain ⟨hc', hr'⟩ := hm.coherent (sources request hrequest) hfull hc
  exact ⟨hm.full hfull, hc', hr.trans hr'⟩

/-- An answer is the value that is stored in the end, next to all that were stored before. -/
theorem value?_of_answer {I : DyadicInterval} {resolution : Int} {value : V}
    (hsource : source.Recombines mul) (h : cache.store.tree.Full)
    (hc : cache.store.tree.Coherent mul)
    (hanswer : cache.answer source (.dyadic I) resolution = (.ok value, cache')) :
    cache'.store.tree.value? I = some value ∧ cache.store.tree.Retains cache'.store.tree := by
  have hends : Ends (dyadicValue cache.policy source I resolution) cache.store _ _ :=
    dyadicValue_moves cache.policy h
  have hrun : dyadicValue cache.policy source I resolution cache.store = .ok value cache'.store :=
    run_of_answer_ok hanswer
  rw [ends_of_ok hrun] at hends
  obtain ⟨-, hm, node, hnode, rfl⟩ := hends
  exact ⟨value?_of_find? hnode, (hm.coherent hsource h hc).2⟩

/-- After any requests to an empty cache whose sources combine by one multiplication and split
values into halves that make them up, be they answered or not, every key with halves has the product
of their values, and every value stored stays what it is from then on: in the middle of a query,
after adding two halves and however far the propagation has got, and after all later requests. So
two answers for one interval are the same, whatever their resolutions and whatever was requested in
between. -/
theorem coherent_after_requests (mul : V → V → V) (policy : Policy) (dissection : Dissection)
    (earlier : List (Request V)) (sources : ∀ request ∈ earlier, request.source.Recombines mul) :
    let cache := ({ policy, dissection } : Cache V).after earlier
    cache.store.tree.Coherent mul ∧
    (∀ source : Source V, source.Recombines mul → ∀ I resolution s₁ s₂,
      Moves source I resolution cache.store s₁ → Moves source I resolution s₁ s₂ →
      s₂.tree.Coherent mul ∧ s₁.tree.Retains s₂.tree ∧
      ∀ leaf node leftValue rightValue, s₂.tree.find? leaf = some node →
        s₂.tree.contains leaf.left = false →
        source.split s₂.tree.size node.value leaf.left leaf.right = .ok (leftValue, rightValue) →
        ∃ t, insertHalves leaf leaf.left leaf.right leftValue rightValue s₂.tree = .ok () t ∧
          s₂.tree.Retains t ∧ ∀ levels activity,
            let s₃ := final (propagateLevels source levels leaf.left) ⟨t, activity⟩
            s₃.tree.Coherent mul ∧ ∀ key, s₃.tree.value? key = t.value? key) ∧
    (∀ later, (∀ request ∈ later, request.source.Recombines mul) →
      cache.store.tree.Retains (cache.after later).store.tree) ∧
    ∀ source source' : Source V, source.Recombines mul → source'.Recombines mul →
      ∀ I resolution resolution' value value' cache₁ cache₂ between,
      (∀ request ∈ between, request.source.Recombines mul) →
      cache.answer source (.dyadic I) resolution = (.ok value, cache₁) →
      (cache₁.after between).answer source' (.dyadic I) resolution' = (.ok value', cache₂) →
      value' = value := by
  intro cache
  obtain ⟨hfull, hcoherent, -⟩ : cache.store.tree.Full ∧ cache.store.tree.Coherent mul ∧ _ :=
    after_coherent sources (.inl rfl) (coherent_empty mul)
  refine ⟨hcoherent, ?_, fun later hlater => (after_coherent hlater hfull hcoherent).2.2, ?_⟩
  · intro source hsource I resolution s₁ s₂ hm₁ hm₂
    have hfull₁ := hm₁.full hfull
    obtain ⟨hc₁, -⟩ := hm₁.coherent hsource hfull hcoherent
    obtain ⟨hc₂, hr₂⟩ := hm₂.coherent hsource hfull₁ hc₁
    refine ⟨hc₂, hr₂, ?_⟩
    intro leaf node leftValue rightValue hnode hl hv
    have hleaf := contains_of_find? hnode
    obtain ⟨root, hroot⟩ := (hm₂.full hfull₁).exists_fullUnder hleaf
    refine ⟨_, insertHalves_run hleaf hl (hroot.not_contains_right hleaf hl) leftValue rightValue,
      hroot.retains_halved hleaf hl, ?_⟩
    intro levels activity s₃
    have hend : Unmoved mul root (s₂.tree.halved leaf leftValue rightValue) s₃ :=
      (Keeps.propagateLevels hsource.toMultiplies levels leaf.left
        ⟨s₂.tree.halved leaf leftValue rightValue, activity⟩
        ⟨hroot.halved hleaf hl leftValue rightValue,
          hc₂.halved hroot hnode hl (hsource.whole _ _ _ _ _ _ hv), fun _ => rfl⟩).final
    exact ⟨hend.coherent, hend.value?_eq⟩
  · intro source source' hsource hsource' I resolution resolution' value value' cache₁ cache₂
      between hbetween hanswer hanswer'
    obtain ⟨hvalue, -⟩ := value?_of_answer hsource hfull hcoherent hanswer
    have hone : ∀ request ∈ [(⟨source, .dyadic I, resolution⟩ : Request V)],
        request.source.Recombines mul :=
      fun request hrequest => List.mem_singleton.1 hrequest ▸ hsource
    have hfirst : (cache.answer source (.dyadic I) resolution).2.store.tree.Full ∧
        (cache.answer source (.dyadic I) resolution).2.store.tree.Coherent mul ∧ _ :=
      after_coherent hone hfull hcoherent
    rw [hanswer] at hfirst
    obtain ⟨hfull₁, hcoherent₁, -⟩ := hfirst
    obtain ⟨hfull₂, hcoherent₂, hretains⟩ := after_coherent hbetween hfull₁ hcoherent₁
    obtain ⟨hvalue', hretains'⟩ := value?_of_answer hsource' hfull₂ hcoherent₂ hanswer'
    exact Option.some_inj.1 (hvalue'.symm.trans (hretains' _ _ (hretains _ _ hvalue)))

/-- A source of lists that are appended and split in the middle. It refuses neighbours of a root. -/
def lists : Source (List Int) where
  zero _ := []
  fresh nodes I :=
    if nodes = 0 then .ok [I.offset, I.power] else .error (.computation I "no neighbours")
  combine _ a b
    | .left => .ok (a ++ b)
    | .right => .ok (b ++ a)
  split _ value _ _ := .ok (value.take (value.length / 2), value.drop (value.length / 2))

theorem lists_recombines : lists.Recombines (· ++ ·) where
  left _ _ _ := rfl
  right _ _ _ := rfl
  whole := by
    intro nodes value left right leftValue rightValue hv
    cases hv
    exact List.take_append_drop _ value

/-- An interval is answered as a leaf, a neighbour is refused, and the interval is answered again
when it has been split twice. -/
theorem coherent_after_refinement :
    let first := ({} : Cache (List Int)).answer lists (.dyadic ⟨7, 1⟩) 1
    let second := (first.2.after [⟨lists, .dyadic ⟨0, 0⟩, 0⟩]).answer lists (.dyadic ⟨7, 1⟩) 3
    first.1 = .ok [7, 1] ∧ second.1 = .ok [7, 1] ∧ second.2.store.tree.size = 7 ∧
      (({} : Cache (List Int)).after [⟨lists, .dyadic ⟨7, 1⟩, 3⟩]).store.tree.Coherent
        (· ++ ·) := by
  intro first second
  have hfirst : first.1 = .ok [7, 1] := by
    simp only [first]
    cbv
  have hsecond : second.1.isOk = true := by
    simp only [second, first]
    cbv
  have hnone : ∀ request ∈ ([] : List (Request (List Int))), request.source.Recombines (· ++ ·) :=
    fun _ hmem => absurd hmem List.not_mem_nil
  have hone : ∀ request ∈ [(⟨lists, .dyadic ⟨0, 0⟩, 0⟩ : Request (List Int))],
      request.source.Recombines (· ++ ·) :=
    fun request hmem => List.mem_singleton.1 hmem ▸ lists_recombines
  refine ⟨hfirst, ?_, ?_, ?_⟩
  · cases hvalue : second.1 with
    | error failure =>
      rw [hvalue] at hsecond
      cases hsecond
    | ok value =>
      rw [(coherent_after_requests (· ++ ·) {} Dissection.onGrid [] hnone).2.2.2 lists lists
        lists_recombines lists_recombines ⟨7, 1⟩ 1 3 [7, 1] value first.2 second.2
        [⟨lists, .dyadic ⟨0, 0⟩, 0⟩] hone (Prod.fst_eq_iff.1 hfirst) (Prod.fst_eq_iff.1 hvalue)]
  · simp only [second, first]
    cbv
  · exact (coherent_after_requests (· ++ ·) {} Dissection.onGrid
      [⟨lists, .dyadic ⟨7, 1⟩, 3⟩]
      (fun request hmem => List.mem_singleton.1 hmem ▸ lists_recombines)).1

end Cache

end SignatureCache
