import Mathlib
import SignatureCache.Proofs.Cache.Steps
import SignatureCache.Proofs.Tree.Improvement

/-!
# A cache only improves

No step removes a key, changes a link that is there, lowers an accuracy, or replaces a value but by
a more accurate one; and a step changes the tree just if it counts as a mutation, planting aside.
Both pass on to whole runs: improvements can be composed, and as none can be undone, a run whose
ends are equal has not changed the tree in between.
-/

namespace SignatureCache

open DyadicInterval SignatureCache.Tree

namespace Store

variable {V : Type} {s s' s'' : Store V}

/-- The tree of the second store is that of the first one or an improvement of it. Mutations are
counted, and under a root they tell which of the two is the case. -/
structure ImprovesTo (s s' : Store V) : Prop where
  tree : s.tree.ImprovesTo s'.tree
  mutations_le : s.activity.mutations ≤ s'.activity.mutations
  mutations_eq_iff : s.tree ≠ empty →
    (s'.activity.mutations = s.activity.mutations ↔ s'.tree = s.tree)

theorem ImprovesTo.of_eq (htree : s'.tree = s.tree)
    (hcount : s'.activity.mutations = s.activity.mutations) : s.ImprovesTo s' where
  tree := htree ▸ .refl s'.tree
  mutations_le := hcount.ge
  mutations_eq_iff _ := iff_of_true hcount htree

theorem ImprovesTo.of_gain (key : DyadicInterval) (htree : s.tree.ImprovesTo s'.tree)
    (hcount : s'.activity.mutations = s.activity.mutations + 1)
    (hkey : s'.tree.accuracy? key ≠ s.tree.accuracy? key) : s.ImprovesTo s' where
  tree := htree
  mutations_le := by omega
  mutations_eq_iff _ := iff_of_false (by omega) fun heq => hkey (by rw [heq])

theorem ImprovesTo.trans (h : s.ImprovesTo s') (h' : s'.ImprovesTo s'') : s.ImprovesTo s'' where
  tree := h.tree.trans h'.tree
  mutations_le := h.mutations_le.trans h'.mutations_le
  mutations_eq_iff hne := by
    have hiff := h.mutations_eq_iff hne
    have hiff' := h'.mutations_eq_iff (h.tree.ne_empty hne)
    have hle := h.mutations_le
    have hle' := h'.mutations_le
    constructor
    · intro hcount
      rw [hiff'.1 (by omega), hiff.1 (by omega)]
    · intro htree
      -- What comes between two equal trees is equal to both.
      have hmid : s'.tree = s.tree := h.tree.antisymm (htree ▸ h'.tree)
      rw [hiff'.2 (htree.trans hmid.symm), hiff.2 hmid]

theorem Step.improvesTo (h : Step s s') : s.ImprovesTo s' := by
  cases h with
  | ask => exact .of_eq rfl rfl
  | hit => exact .of_eq rfl rfl
  | plant hempty I value =>
    refine ⟨?_, le_rfl, fun hne => absurd hempty hne⟩
    intro key node hnode
    simp [hempty] at hnode
  | @grow root node hfull hnode neighbourValue value =>
    apply ImprovesTo.of_gain root.parent
    · exact hfull.improvesTo_grown hnode neighbourValue value
    · simp only [Store.grown, Activity.mutations]
      omega
    · rw [accuracy?_eq_none hfull.not_contains_parent_root, Store.grown,
        accuracy?_of_find? find?_grown_parent]
      exact Option.some_ne_none _
  | @halve root leaf hfull hleaf hl leftValue rightValue =>
    apply ImprovesTo.of_gain leaf.left
    · exact hfull.improvesTo_halved hleaf hl leftValue rightValue
    · simp only [Store.halved, Activity.mutations]
      omega
    · rw [accuracy?_eq_none hl, Store.halved, accuracy?_of_find? find?_halved_left]
      exact Option.some_ne_none _
  | @improve root below b sib par hfull hf hgain value =>
    apply ImprovesTo.of_gain below.parent
    · exact improvesTo_put hf.parent (Node.improvesTo_improved (by omega) value)
    · simp only [Store.improved, Activity.mutations]
      omega
    · rw [accuracy?_of_find? hf.parent, Store.improved, accuracy?_of_find? (find?_put_self _ _ _),
        ne_eq, Option.some_inj]
      change ¬ min b.accuracy sib.accuracy = par.accuracy
      omega

theorem Steps.improvesTo (h : Steps s s') : s.ImprovesTo s' := by
  induction h with
  | refl => exact .of_eq rfl rfl
  | tail _ step ih => exact ih.trans step.improvesTo

end Store

namespace Cache

open Work Store

variable {V : Type}

/-- Whatever requests come, answered or not, the cache only gets better: it takes a sequence of
steps, and from any state of a run to any later one no key is removed, no link changes, no accuracy
drops, and a value is only replaced by a more accurate one. If the later state has the same shape as
the earlier one, it has the same values. Requests to a cache that is not empty leave the number of
mutations just if they leave the tree. -/
theorem improved_after_requests (policy : Policy) (dissection : Dissection)
    (earlier later : List (Request V))
    (combines : ∀ request ∈ earlier ++ later, request.source.Combines) :
    let s := (({ policy, dissection } : Cache V).after earlier).store
    let s' := (({ policy, dissection } : Cache V).after (earlier ++ later)).store
    Steps {} s ∧ Steps s s' ∧
    (∀ mid mid' : Store V, Steps {} mid → Steps mid mid' →
      (∀ key node, mid.tree.find? key = some node →
        ∃ node', mid'.tree.find? key = some node' ∧ node.ImprovesTo node') ∧
      (SameShape mid.tree mid'.tree → mid'.tree = mid.tree)) ∧
    (s.tree ≠ empty → (s'.activity.mutations = s.activity.mutations ↔ s'.tree = s.tree)) := by
  intro s s'
  obtain ⟨hfirst, hsteps⟩ : Steps {} s ∧ Steps s s' := new_steps policy dissection combines
  refine ⟨hfirst, hsteps, ?_, hsteps.improvesTo.mutations_eq_iff⟩
  rintro mid mid' - hrun
  have htree := (Steps.improvesTo hrun).tree
  exact ⟨htree, htree.eq_of_sameShape⟩

/-- A value is replaced as its node becomes more accurate; asked for once more, nothing is
changed. -/
theorem improved_after_refinement :
    let T : Transcript := ⟨"v", [], false, some []⟩
    let coarse : Request String := ⟨T.source, .dyadic ⟨0, 0⟩, 0⟩
    let fine : Request String := ⟨T.source, .dyadic ⟨0, 0⟩, 1⟩
    let s := (({} : Cache String).after [coarse]).store
    let s₁ := (({} : Cache String).after [coarse, fine]).store
    let s₂ := (({} : Cache String).after ([coarse, fine] ++ [fine])).store
    (s.tree.find? ⟨0, 0⟩).map Node.value = some "v0:0" ∧
      (s₁.tree.find? ⟨0, 0⟩).map Node.value = some "(l0:1<v0:0 r1:1<v0:0)" ∧
      s₁.activity.mutations = s.activity.mutations + 2 ∧ s₂.tree = s₁.tree := by
  intro T coarse fine s s₁ s₂
  have combines : ∀ request ∈ [coarse, fine] ++ [fine], request.source.Combines := by
    intro request hrequest
    simp only [List.cons_append, List.nil_append, List.mem_cons, List.not_mem_nil,
      or_false] at hrequest
    rcases hrequest with rfl | rfl | rfl
    · exact Transcript.combines _
    · exact Transcript.combines _
    · exact Transcript.combines _
  have hne : s₁.tree ≠ empty := by
    intro heq
    have hkey : s₁.tree.contains ⟨0, 0⟩ = true := by
      simp only [s₁, coarse, fine]
      cbv
    simp [heq] at hkey
  have hvalue : (s.tree.find? ⟨0, 0⟩).map Node.value = some "v0:0" := by
    simp only [s, coarse]
    cbv
  have hvalue₁ : (s₁.tree.find? ⟨0, 0⟩).map Node.value = some "(l0:1<v0:0 r1:1<v0:0)" := by
    simp only [s₁, coarse, fine]
    cbv
  have hcount : s₁.activity.mutations = s.activity.mutations + 2 := by
    simp only [s, s₁, coarse, fine]
    cbv
  have hcount₂ : s₂.activity.mutations = s₁.activity.mutations := by
    simp only [s₁, s₂, coarse, fine]
    cbv
  obtain ⟨-, -, -, hmutations⟩ :=
    improved_after_requests {} Dissection.onGrid [coarse, fine] [fine] combines
  exact ⟨hvalue, hvalue₁, hcount, (hmutations hne).1 hcount₂⟩

end Cache

end SignatureCache
