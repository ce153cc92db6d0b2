import Mathlib
import SignatureCache.Proofs.Cache.Improvement
import SignatureCache.Proofs.Tree.Census

/-!
# The counters account for the tree

Every node was planted, added beside a growing root, or added with a split, and every unit of
accuracy that a node has gained was counted as a propagation. So the counters tell the size of the
tree and the number of its leaves, and they balance after every step. A chronicle of a run notes how
accurate each key was when it came into the tree. Between two requests there are no fewer
propagations than splits, as each split ends with a gain of the leaf.
-/

namespace SignatureCache

open DyadicInterval SignatureCache.Tree

/-! ### Readings of the counters -/

namespace Activity

variable {a b c : Activity}

/-- No counter of the first reading is above that of the second one. -/
structure AtMost (a b : Activity) : Prop where
  queries : a.queries ≤ b.queries
  hits : a.hits ≤ b.hits
  freshComputations : a.freshComputations ≤ b.freshComputations
  splits : a.splits ≤ b.splits
  rootExpansions : a.rootExpansions ≤ b.rootExpansions
  neighbourNodes : a.neighbourNodes ≤ b.neighbourNodes
  propagations : a.propagations ≤ b.propagations

theorem AtMost.refl (a : Activity) : a.AtMost a :=
  ⟨le_rfl, le_rfl, le_rfl, le_rfl, le_rfl, le_rfl, le_rfl⟩

theorem AtMost.trans (h : a.AtMost b) (h' : b.AtMost c) : a.AtMost c where
  queries := h.queries.trans h'.queries
  hits := h.hits.trans h'.hits
  freshComputations := h.freshComputations.trans h'.freshComputations
  splits := h.splits.trans h'.splits
  rootExpansions := h.rootExpansions.trans h'.rootExpansions
  neighbourNodes := h.neighbourNodes.trans h'.neighbourNodes
  propagations := h.propagations.trans h'.propagations

/-- What happened between two readings can be told if no counter has gone back. -/
theorem AtMost.since?_eq (h : a.AtMost b) :
    b.since? a = .ok {
      queries := b.queries - a.queries
      hits := b.hits - a.hits
      freshComputations := b.freshComputations - a.freshComputations
      splits := b.splits - a.splits
      rootExpansions := b.rootExpansions - a.rootExpansions
      neighbourNodes := b.neighbourNodes - a.neighbourNodes
      propagations := b.propagations - a.propagations } := by
  simp only [since?, grown?, if_pos h.queries, if_pos h.hits, if_pos h.freshComputations,
    if_pos h.splits, if_pos h.rootExpansions, if_pos h.neighbourNodes, if_pos h.propagations]
  rfl

end Activity

namespace Store

variable {V : Type} {s s' : Store V}

theorem Step.atMost (h : Step s s') : s.activity.AtMost s'.activity := by
  cases h with
  | ask => exact ⟨Nat.le_succ _, le_rfl, le_rfl, le_rfl, le_rfl, le_rfl, le_rfl⟩
  | hit => exact ⟨Nat.le_succ _, Nat.le_succ _, le_rfl, le_rfl, le_rfl, le_rfl, le_rfl⟩
  | plant => exact ⟨le_rfl, le_rfl, Nat.le_succ _, le_rfl, le_rfl, le_rfl, le_rfl⟩
  | grow => exact ⟨le_rfl, le_rfl, Nat.le_succ _, le_rfl, Nat.le_succ _, Nat.le_succ _, le_rfl⟩
  | halve => exact ⟨le_rfl, le_rfl, le_rfl, Nat.le_succ _, le_rfl, le_rfl, le_rfl⟩
  | improve => exact ⟨le_rfl, le_rfl, le_rfl, le_rfl, le_rfl, le_rfl, Nat.le_succ _⟩

theorem Steps.atMost (h : Steps s s') : s.activity.AtMost s'.activity := by
  induction h with
  | refl => exact .refl _
  | tail _ step ih => exact ih.trans step.atMost

/-! ### Nodes, leaves and fresh values -/

/-- The counters tell how many nodes and leaves there are, and how many values were fresh. -/
structure Balanced (s : Store V) : Prop where
  neighbours : s.activity.neighbourNodes = s.activity.rootExpansions
  hits : s.activity.hits ≤ s.activity.queries
  untouched : s.tree = empty → s.activity.splits = 0 ∧ s.activity.rootExpansions = 0 ∧
    s.activity.propagations = 0 ∧ s.activity.freshComputations = 0
  size : s.tree ≠ empty → s.tree.size = 1 + 2 * (s.activity.splits + s.activity.rootExpansions)
  leaves : s.tree ≠ empty →
    s.tree.leaves.length = 1 + s.activity.splits + s.activity.rootExpansions
  fresh : s.tree ≠ empty → s.activity.freshComputations = 1 + s.activity.rootExpansions

theorem balanced_empty : ({} : Store V).Balanced :=
  ⟨rfl, le_rfl, fun _ => ⟨rfl, rfl, rfl, rfl⟩, fun h => absurd rfl h, fun h => absurd rfl h,
    fun h => absurd rfl h⟩

theorem ne_empty_of_fullUnder {t : Tree V} {root : DyadicInterval} (h : t.FullUnder root) :
    t ≠ empty := by
  rintro rfl
  simpa using h.contains_root

/-- The counters balance in a tree with a root if they do so for that case. -/
theorem Balanced.of_root {root : DyadicInterval} (h : s.tree.FullUnder root)
    (neighbours : s.activity.neighbourNodes = s.activity.rootExpansions)
    (hits : s.activity.hits ≤ s.activity.queries)
    (size : s.tree.size = 1 + 2 * (s.activity.splits + s.activity.rootExpansions))
    (leaves : s.tree.leaves.length = 1 + s.activity.splits + s.activity.rootExpansions)
    (fresh : s.activity.freshComputations = 1 + s.activity.rootExpansions) : s.Balanced :=
  ⟨neighbours, hits, fun hempty => absurd hempty (ne_empty_of_fullUnder h), fun _ => size,
    fun _ => leaves, fun _ => fresh⟩

theorem Step.balanced (h : Step s s') (hb : s.Balanced) : s'.Balanced := by
  obtain ⟨hneighbours, hhits, huntouched, hsize, hleaves, hfresh⟩ := hb
  cases h with
  | ask => exact ⟨hneighbours, Nat.le_succ_of_le hhits, huntouched, hsize, hleaves, hfresh⟩
  | hit => exact ⟨hneighbours, Nat.succ_le_succ hhits, huntouched, hsize, hleaves, hfresh⟩
  | plant hempty I value =>
    obtain ⟨hsplits, hexpansions, -, hcount⟩ := huntouched hempty
    have hnew := (leaves_plant I (⟨value, I.power, none, none⟩ : Node V)).length_eq
    apply Balanced.of_root (Work.fullUnder_planted hempty value) hneighbours hhits
    · simp only [Store.planted, hempty, size_plant, hsplits, hexpansions]
    · simp only [Store.planted, hempty, hnew, hsplits, hexpansions, List.length_singleton]
    · simp only [Store.planted, hcount, hexpansions]
  | @grow root node hroot hnode neighbourValue value =>
    have hne := ne_empty_of_fullUnder hroot
    have hmore := hroot.size_grown hnode neighbourValue value
    have hnew := (hroot.leaves_grown node neighbourValue value).length_eq
    rw [List.length_cons, hleaves hne] at hnew
    rw [hsize hne] at hmore
    have hgrown : (s.grown root node neighbourValue value).tree.FullUnder root.parent :=
      hroot.grown
    apply Balanced.of_root hgrown (congrArg Nat.succ hneighbours) hhits
    · simp only [Store.grown, hmore]
      omega
    · simp only [Store.grown, hnew]
      omega
    · simp only [Store.grown, hfresh hne]
      omega
  | @halve root leaf hroot hleaf hl leftValue rightValue =>
    have hne := ne_empty_of_fullUnder hroot
    have hmore := hroot.size_halved hleaf hl leftValue rightValue
    have hnew := (hroot.leaves_halved hleaf hl leftValue rightValue).length_eq
    have hlost := List.length_erase_add_one (mem_leaves_iff.2 ⟨hleaf, hl⟩)
    rw [List.length_cons, List.length_cons, hlost, hleaves hne] at hnew
    rw [hsize hne] at hmore
    have hhalved : (s.halved leaf leftValue rightValue).tree.FullUnder root :=
      hroot.halved hleaf hl leftValue rightValue
    apply Balanced.of_root hhalved hneighbours hhits
    · simp only [Store.halved, hmore]
      omega
    · simp only [Store.halved, hnew]
      omega
    · exact hfresh hne
  | @improve root below b sib par hroot hf hgain value =>
    have hne := ne_empty_of_fullUnder hroot
    apply Balanced.of_root (Work.fullUnder_improved hroot hf value _) hneighbours hhits
    · exact (size_put_old hf.parent _).trans (hsize hne)
    · exact (congrArg List.length (leaves_put_old hf.parent _)).trans (hleaves hne)
    · exact hfresh hne

theorem Steps.balanced (h : Steps s s') (hb : s.Balanced) : s'.Balanced := by
  induction h with
  | refl => exact hb
  | tail _ step ih => exact step.balanced ih

/-! ### Accuracies gained -/

/-- How accurate each key was when it came into the tree. -/
abbrev Births := DyadicInterval → Option Int

/-- What is noted when a tree is looked at: the accuracies of the keys that are not noted yet. -/
def Births.noted (births : Births) (t : Tree V) : Births :=
  fun key => (births key).or (t.accuracy? key)

/-- The accuracy that a node has gained since it came into the tree. -/
def Births.gain (births : Births) (key : DyadicInterval) (node : Node V) : Int :=
  (births key).elim 0 (node.accuracy - ·)

/-- The births that are noted along a run from the empty store, step by step. -/
inductive Chronicle : Births → Store V → Prop
  | start : Chronicle (fun _ => none) {}
  | step {births : Births} {s s' : Store V} (chronicle : Chronicle births s) (step : Step s s') :
      Chronicle (births.noted s'.tree) s'

theorem exists_chronicle (h : Steps {} s) : ∃ births, Chronicle births s := by
  induction h with
  | refl => exact ⟨_, .start⟩
  | tail _ step ih =>
    obtain ⟨births, chronicle⟩ := ih
    exact ⟨_, chronicle.step step⟩

variable {births : Births} {t : Tree V} {key : DyadicInterval} {node : Node V}

/-- A new key has not gained anything. -/
theorem Births.gain_new (hnew : births key = none) (hnode : t.find? key = some node)
    {node' : Node V} (hacc : node'.accuracy = node.accuracy) :
    (births.noted t).gain key node' = 0 := by
  rw [gain, noted, hnew, Option.none_or, accuracy?_of_find? hnode, Option.elim_some, hacc]
  omega

/-- What is noted stays noted. -/
theorem Births.gain_noted (hold : (births key).isSome = true) (t : Tree V) :
    (births.noted t).gain key node = births.gain key node := by
  obtain ⟨power, hp⟩ := Option.isSome_iff_exists.1 hold
  rw [gain, gain, noted, hp, Option.some_or]

theorem Births.isSome_noted (hknown : ∀ key, (births key).isSome = s.tree.contains key)
    (h : s.tree.ImprovesTo t) (key : DyadicInterval) :
    ((births.noted t) key).isSome = t.contains key := by
  rw [noted, Option.isSome_or, hknown, accuracy?, Option.isSome_map, ← contains_eq_isSome]
  cases hkey : s.tree.contains key with
  | false => rw [Bool.false_or]
  | true => rw [h.contains hkey, Bool.or_self]

theorem Chronicle.isSome_eq (h : Chronicle births s) (key : DyadicInterval) :
    (births key).isSome = s.tree.contains key := by
  induction h generalizing key with
  | start => exact (contains_empty key).symm
  | step _ step ih => exact Births.isSome_noted ih step.improvesTo.tree key

/-- A step counts a propagation just if a node gains one. -/
theorem Step.propagations (h : Step s s')
    (hknown : ∀ key, (births key).isSome = s.tree.contains key) :
    s'.activity.propagations - s'.tree.total (births.noted s'.tree).gain =
      s.activity.propagations - s.tree.total births.gain := by
  have hold : s.tree.total (births.noted s'.tree).gain = s.tree.total births.gain := by
    apply total_congr
    intro key node hnode
    exact Births.gain_noted ((hknown key).trans (contains_of_find? hnode)) s'.tree
  have hnone : ∀ {key}, s.tree.contains key = false → births key = none := by
    intro key hkey
    rw [← Option.isNone_iff_eq_none, ← Option.isSome_eq_false_iff, hknown, hkey]
  cases h with
  | ask => rw [← hold]; rfl
  | hit => rw [← hold]; rfl
  | plant hempty I value =>
    have hI := hnone (hempty ▸ contains_empty I)
    have hzero := Births.gain_new (t := (s.planted I value).tree) hI (find?_put_self _ _ _) rfl
    simp only [Store.planted, hempty, total_plant, total_empty] at hzero ⊢
    omega
  | @grow root node hroot hnode neighbourValue value =>
    have hsibling := Births.gain_new (t := (s.grown root node neighbourValue value).tree)
      (hnone hroot.not_contains_sibling_root) find?_grown_sibling rfl
    have hparent := Births.gain_new (t := (s.grown root node neighbourValue value).tree)
      (hnone hroot.not_contains_parent_root) find?_grown_parent rfl
    have htotal := hroot.total_grown hnode neighbourValue value
      (births.noted (s.grown root node neighbourValue value).tree).gain
    -- Links do not weigh anything.
    have hlinked : (births.noted (s.grown root node neighbourValue value).tree).gain root
        (node.linked root.parent root.sibling) =
          (births.noted (s.grown root node neighbourValue value).tree).gain root node := rfl
    rw [hsibling, hparent, hlinked, hold] at htotal
    simp only [Store.grown] at htotal ⊢
    omega
  | @halve root leaf hroot hleaf hl leftValue rightValue =>
    have hleft := Births.gain_new (t := (s.halved leaf leftValue rightValue).tree) (hnone hl)
      find?_halved_left rfl
    have hright := Births.gain_new (t := (s.halved leaf leftValue rightValue).tree)
      (hnone (hroot.not_contains_right hleaf hl)) find?_halved_right rfl
    have htotal := hroot.total_halved hleaf hl leftValue rightValue
      (births.noted (s.halved leaf leftValue rightValue).tree).gain
    rw [hleft, hright, hold] at htotal
    simp only [Store.halved] at htotal ⊢
    omega
  | @improve root below b sib par hroot hf hgain value =>
    obtain ⟨power, hpower⟩ :=
      Option.isSome_iff_exists.1 ((hknown below.parent).trans (contains_of_find? hf.parent))
    have htotal := total_put_old hf.parent
      (births.noted (s.improved below par value (min b.accuracy sib.accuracy)).tree).gain
      (par.improved value (min b.accuracy sib.accuracy))
    have hone : births.gain below.parent (par.improved value (min b.accuracy sib.accuracy)) =
        births.gain below.parent par + 1 := by
      rw [Births.gain, Births.gain, hpower, Option.elim_some, Option.elim_some, hgain]
      change par.accuracy + 1 - power = par.accuracy - power + 1
      omega
    have hparent := (hknown below.parent).trans (contains_of_find? hf.parent)
    rw [hold, Births.gain_noted hparent, Births.gain_noted hparent, hone] at htotal
    simp only [Store.improved] at htotal ⊢
    omega

/-- The propagations are the accuracies that all nodes have gained since they came in. -/
theorem Chronicle.propagations_eq (h : Chronicle births s) :
    (s.activity.propagations : Int) = s.tree.total births.gain := by
  induction h with
  | start => exact (total_empty _).symm
  | step chronicle step ih =>
    have hstep := step.propagations chronicle.isSome_eq
    omega

end Store

namespace Work

variable {V : Type} {source : Source V} {deed : Deed} {root start below leaf : DyadicInterval}
  {s s' : Store V}

/-! ### Splits and propagations -/

/-- A climb counts propagations, at least one unless it ends where it starts. -/
theorem Climb.activity (hc : Climb source start s below s') (h : s.tree.FullUnder root) :
    s'.activity.splits = s.activity.splits ∧
      (s' = s ∨ s.activity.propagations < s'.activity.propagations) := by
  induction hc with
  | refl => exact ⟨rfl, .inl rfl⟩
  | tail climb raise ih =>
    obtain ⟨b, sib, par, value, -, -, rfl⟩ := raise.eq_improved (climb.steps h).2
    refine ⟨ih.1, .inr ?_⟩
    rcases ih.2 with rfl | hlt
    · exact Nat.lt_succ_self _
    · exact hlt.trans (Nat.lt_succ_self _)

theorem Does.splits_le (hd : Does source deed s s') (combines : source.Combines)
    (h : s.tree.Full) (hx : s.tree.Exact)
    (hle : s.activity.splits ≤ s.activity.propagations) :
    s'.activity.splits ≤ s'.activity.propagations := by
  cases hd with
  | ask => exact hle
  | hit => exact hle
  | plant => exact hle
  | compute => exact hle
  | grow => exact hle
  | @split _ leaf node leftValue rightValue hnode hl =>
    have hleaf := contains_of_find? hnode
    obtain ⟨root, last, hroot, hexact, hclimb⟩ :=
      split_climbs combines h hx hnode hl leftValue rightValue
    obtain ⟨hsplits, hgain⟩ := hclimb.activity (hroot.halved hleaf hl leftValue rightValue)
    -- The leaf lags behind its new halves, so the climb does not end at once.
    have hlt := hgain.resolve_left (by
      intro heq
      rw [heq] at hexact
      exact hroot.not_exact_halved hleaf hl hx leftValue rightValue hexact)
    simp only [Store.halved] at hsplits hlt ⊢
    omega

end Work

namespace Cache

open Work Store

variable {V : Type}

/-- Between any requests, answered or not, the counters account for the tree: there are two nodes
and one leaf for each split and each growth of the root, beside the first one, and a fresh value for
each growth, beside the first one; every propagation is a unit of accuracy that some node has gained
since it came into the tree. The counters never go back, so what happened between two readings can
always be told. -/
theorem accounted_after_requests (policy : Policy) (dissection : Dissection)
    (earlier later : List (Request V))
    (combines : ∀ request ∈ earlier ++ later, request.source.Combines) :
    let s := (({ policy, dissection } : Cache V).after earlier).store
    let s' := (({ policy, dissection } : Cache V).after (earlier ++ later)).store
    let a := s.activity
    a.neighbourNodes = a.rootExpansions ∧
    (s.tree = empty →
      a.splits = 0 ∧ a.rootExpansions = 0 ∧ a.propagations = 0 ∧ a.freshComputations = 0) ∧
    (s.tree ≠ empty →
      s.tree.size = 1 + 2 * (a.splits + a.rootExpansions) ∧
      s.tree.leaves.length = 1 + a.splits + a.rootExpansions ∧
      a.freshComputations = 1 + a.rootExpansions) ∧
    a.splits ≤ a.propagations ∧ a.hits ≤ a.queries ∧
    (∃ births, Chronicle births s) ∧
    (∀ births, Chronicle births s → (∀ key, (births key).isSome = s.tree.contains key) ∧
      (a.propagations : Int) = s.tree.total births.gain) ∧
    a.AtMost s'.activity ∧ ∃ difference, s'.activity.since? a = .ok difference := by
  intro s s' a
  have hearlier : ∀ request ∈ earlier, request.source.Combines :=
    fun request hmem => combines request (List.mem_append_left _ hmem)
  obtain ⟨hfirst, hsteps⟩ : Steps {} s ∧ Steps s s' := new_steps policy dissection combines
  have hsplits : a.splits ≤ a.propagations := by
    apply after_deeds (P := fun s => s.activity.splits ≤ s.activity.propagations) hearlier _
      (.inl rfl) exact_empty le_rfl
    intro request hrequest deed s s' hfull hexact hle hd
    exact hd.splits_le (hearlier request hrequest) hfull hexact hle
  have hb : s.Balanced := Steps.balanced hfirst balanced_empty
  have hmost : a.AtMost s'.activity := Steps.atMost hsteps
  refine ⟨hb.neighbours, hb.untouched, fun hne => ⟨hb.size hne, hb.leaves hne, hb.fresh hne⟩,
    hsplits, hb.hits, exists_chronicle hfirst, ?_, hmost, _, hmost.since?_eq⟩
  intro births chronicle
  exact ⟨chronicle.isSome_eq, chronicle.propagations_eq⟩

/-- Splits on both sides of a root that has grown once: eleven nodes, and six propagations for the
accuracies that three keys and the root have gained. -/
theorem accounted_after_growth :
    let T : Transcript := ⟨"v", [], false, some []⟩
    let earlier : List (Request String) :=
      [⟨T.source, .dyadic ⟨0, 0⟩, 2⟩, ⟨T.source, .dyadic ⟨1, 0⟩, 1⟩]
    let later : List (Request String) := [⟨T.source, .dyadic ⟨3, 1⟩, 1⟩]
    let s := (({} : Cache String).after earlier).store
    let s' := (({} : Cache String).after (earlier ++ later)).store
    s.activity = ⟨2, 0, 2, 4, 1, 1, 6⟩ ∧ s.tree.size = 11 ∧ s.tree.leaves.length = 6 ∧
      (∃ births, Chronicle births s ∧ s.tree.total births.gain = 6) ∧
      ∃ difference, s'.activity.since? s.activity = .ok difference := by
  intro T earlier later s s'
  have combines : ∀ request ∈ earlier ++ later, request.source.Combines := by
    intro request hrequest
    simp only [earlier, later, List.cons_append, List.nil_append, List.mem_cons, List.not_mem_nil,
      or_false] at hrequest
    rcases hrequest with rfl | rfl | rfl
    · exact Transcript.combines _
    · exact Transcript.combines _
    · exact Transcript.combines _
  have hactivity : s.activity = ⟨2, 0, 2, 4, 1, 1, 6⟩ := by
    simp only [s, earlier]
    cbv
  have hne : s.tree ≠ empty := by
    intro heq
    have hkey : s.tree.contains ⟨0, 0⟩ = true := by
      simp only [s, earlier]
      cbv
    simp [heq] at hkey
  obtain ⟨-, -, hcounts, -, -, ⟨births, chronicle⟩, hbirths, -, hdifference⟩ :=
    accounted_after_requests {} Dissection.onGrid earlier later combines
  obtain ⟨hsize, hleaves, -⟩ := hcounts hne
  obtain ⟨-, hgained⟩ := hbirths births chronicle
  have hactivity' : (({} : Cache String).after earlier).store.activity = ⟨2, 0, 2, 4, 1, 1, 6⟩ :=
    hactivity
  rw [hactivity'] at hsize hleaves hgained
  exact ⟨hactivity, hsize, hleaves, ⟨births, chronicle, hgained.symm⟩, hdifference⟩

end Cache

end SignatureCache
