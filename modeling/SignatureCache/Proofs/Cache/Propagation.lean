import SignatureCache.Cache.Propagation
import SignatureCache.Source.Transcript
import SignatureCache.Proofs.Cache.Work
import SignatureCache.Proofs.Tree.Accuracy

/-!
# Propagation in a full tree

In a full tree a step of the propagation meets no missing node: it stops, or combines the values of
a key and its sibling and sets the parent, or ends with the fault of the combination. So whatever
setting a parent keeps holds after the propagation, and a lagging accuracy has been made up for when
it ends.
-/

namespace SignatureCache

/-- Any two values of the source can be combined. -/
def Source.Combines {V : Type} (source : Source V) : Prop :=
  ∀ nodes a b half, ∃ value, source.combine nodes a b half = .ok value

/-- Any run of values of the source can be combined. -/
def Source.CombinesAll {V : Type} (source : Source V) : Prop :=
  ∀ nodes values, ∃ value, source.combineAll nodes values = .ok value

/-- The source combines a run of values by combining two at a time, from left to right. -/
def Source.Folds {V : Type} (source : Source V) : Prop :=
  ∀ nodes, source.combineAll nodes = runProduct (source.combine nodes) (source.zero nodes)

theorem Source.Folds.combinesAll {V : Type} {source : Source V} (h : source.Folds)
    (combines : source.Combines) : source.CombinesAll := by
  intro nodes values
  rw [h, runProduct]
  generalize source.zero nodes = product
  induction values generalizing product with
  | nil => exact ⟨product, rfl⟩
  | cons value values ih =>
    obtain ⟨next, hnext⟩ := combines nodes product value .left
    obtain ⟨total, htotal⟩ := ih next
    refine ⟨total, ?_⟩
    rw [List.foldlM_cons, hnext]
    exact htotal

theorem Transcript.combines (T : Transcript) : T.source.Combines := by
  intro nodes a b half
  cases half with
  | left => exact ⟨_, rfl⟩
  | right => exact ⟨_, rfl⟩

theorem Transcript.combinesAll (T : Transcript) : T.source.CombinesAll :=
  Source.Folds.combinesAll (fun _ => rfl) T.combines

/-- The store with a key's parent improved from its halves. -/
def Store.improved {V : Type} (s : Store V) (below : DyadicInterval) (parentNode : Node V)
    (value : V) (accuracy : Int) : Store V where
  tree := s.tree.put below.parent (parentNode.improved value accuracy)
  activity := { s.activity with propagations := s.activity.propagations + 1 }

namespace Work

open DyadicInterval SignatureCache.Tree

variable {V : Type} {source : Source V} {s s' : Store V} {root below : DyadicInterval}
  {b sib par : Node V}

/-! ### One step -/

theorem improveParent_root (source : Source V) (h : s.tree.FullUnder root) :
    improveParent source root s = .ok none s := by
  obtain ⟨node, hnode⟩ := exists_find?_of_contains h.contains_root
  have hlink : node.parent? = none := by
    rw [← parent?_of_find? hnode, h.unlinked.1]
  rw [improveParent, bind_of_ok (searched_run s _)]
  simp only [hnode, hlink]
  rfl

theorem improveParent_missing (source : Source V) (h : s.tree.contains below = false) :
    improveParent source below s = .ok none s := by
  rw [improveParent, bind_of_ok (searched_run s _)]
  simp only [find?_eq_none_of_not_contains h]
  rfl

/-- The step at a key that has a family. -/
theorem improveParent_run (source : Source V) (h : s.tree.FullUnder root)
    (hne : below ≠ root) (hf : s.tree.Family below b sib par) :
    improveParent source below s =
      if min b.accuracy sib.accuracy ≤ par.accuracy then .ok none s
      else
        match source.combine s.tree.size b.value sib.value below.half with
        | .error fault => .error (.fault fault) s
        | .ok value => .ok (some below.parent)
            (s.improved below par value (min b.accuracy sib.accuracy)) := by
  obtain ⟨b', sib', par', hf', hp, hs⟩ := h.exists_family (contains_of_find? hf.self) hne
  cases hf.self.symm.trans hf'.self
  rw [improveParent, bind_of_ok (searched_run s _)]
  simp only [hf.self, hp, hs]
  rw [bind_of_ok (orMissing_some _ _ s), bind_of_ok (searched_run s _), hf.sibling,
    bind_of_ok (orMissing_some _ _ s), bind_of_ok (searched_run s _), hf.parent,
    bind_of_ok (orMissing_some _ _ s)]
  split
  · rfl
  · next hlt =>
    cases hc : source.combine s.tree.size b.value sib.value below.half with
    | error fault => rw [bind_of_error (orFault_error fault s)]
    | ok value =>
      have himp : par.improve? value (min b.accuracy sib.accuracy) =
          .ok (par.improved value (min b.accuracy sib.accuracy)) := by
        rw [Node.improve?, if_pos (by omega)]
        rfl
      rw [bind_of_ok (orFault_ok value s), himp, bind_of_ok (orFault_ok _ s)]
      rfl

/-- A step stops, ends with the fault of the combination, or sets the parent. -/
theorem improveParent_cases (source : Source V) (h : s.tree.FullUnder root)
    (below : DyadicInterval) :
    improveParent source below s = .ok none s ∨
    (∃ b sib fault, source.combine s.tree.size b.value sib.value below.half = .error fault ∧
      s.tree.find? below = some b ∧ s.tree.find? below.sibling = some sib ∧
      improveParent source below s = .error (.fault fault) s) ∨
    (∃ b sib par value, s.tree.Family below b sib par ∧
      par.accuracy < min b.accuracy sib.accuracy ∧
      source.combine s.tree.size b.value sib.value below.half = .ok value ∧
      improveParent source below s = .ok (some below.parent)
        (s.improved below par value (min b.accuracy sib.accuracy))) := by
  cases hc : s.tree.contains below with
  | false => exact .inl (improveParent_missing source hc)
  | true =>
    by_cases hne : below = root
    · exact .inl (hne ▸ improveParent_root source (hne ▸ h))
    · obtain ⟨b, sib, par, hf, -, -⟩ := h.exists_family hc hne
      have hrun := improveParent_run source h hne hf
      by_cases hle : min b.accuracy sib.accuracy ≤ par.accuracy
      · rw [if_pos hle] at hrun
        exact .inl hrun
      · rw [if_neg hle] at hrun
        cases hv : source.combine s.tree.size b.value sib.value below.half with
        | error fault =>
          rw [hv] at hrun
          exact .inr (.inl ⟨b, sib, fault, hv, hf.self, hf.sibling, hrun⟩)
        | ok value =>
          rw [hv] at hrun
          exact .inr (.inr ⟨b, sib, par, value, hf, by omega, hv, hrun⟩)

theorem fullUnder_improved (h : s.tree.FullUnder root) (hf : s.tree.Family below b sib par)
    (value : V) (accuracy : Int) : (s.improved below par value accuracy).tree.FullUnder root :=
  h.put hf.parent value accuracy

/-! ### The whole propagation -/

/-- What a step hands on from a key to its parent, the propagation hands on to the key at which it
stops. It only fails if a combination does. -/
theorem propagate_ends {P : DyadicInterval → Store V → Prop}
    (step : ∀ s below b sib par value, s.tree.FullUnder root → P below s →
      s.tree.Family below b sib par → par.accuracy < min b.accuracy sib.accuracy →
      source.combine s.tree.size b.value sib.value below.half = .ok value →
      P below.parent (s.improved below par value (min b.accuracy sib.accuracy)))
    (h : s.tree.FullUnder root) (hP : P below s) (hbelow : s.tree.contains below = true) :
    Ends (propagate source below) s
      (fun _ s' => s'.tree.FullUnder root ∧ ∃ last, s'.tree.contains last = true ∧ P last s' ∧
        improveParent source last s' = .ok none s')
      (fun failure s' => s'.tree.FullUnder root ∧ ∃ last, P last s' ∧
        ∃ b sib fault, s'.tree.find? last = some b ∧ s'.tree.find? last.sibling = some sib ∧
          source.combine s'.tree.size b.value sib.value last.half = .error fault ∧
          failure = .fault fault) := by
  -- The induction is on the levels up to the root.
  have hlevels : ∀ (levels : Nat) s below, s.tree.FullUnder root → P below s →
      s.tree.contains below = true → below.power < root.power + levels →
      Ends (propagateLevels source levels below) s
        (fun _ s' => s'.tree.FullUnder root ∧ ∃ last, s'.tree.contains last = true ∧ P last s' ∧
          improveParent source last s' = .ok none s')
        (fun failure s' => s'.tree.FullUnder root ∧ ∃ last, P last s' ∧
          ∃ b sib fault, s'.tree.find? last = some b ∧ s'.tree.find? last.sibling = some sib ∧
            source.combine s'.tree.size b.value sib.value last.half = .error fault ∧
            failure = .fault fault) := by
    intro levels
    induction levels with
    | zero =>
      intro s below h hP hbelow hp
      have := power_le_of_contains (h.root_contains hbelow)
      omega
    | succ levels ih =>
      intro s below h hP hbelow hp
      rw [propagateLevels]
      rcases improveParent_cases source h below with hrun | ⟨b, sib, fault, hv, hb, hs, hrun⟩ |
        ⟨b, sib, par, value, hf, hlt, hv, hrun⟩
      · rw [Ends, bind_of_ok hrun]
        exact ⟨h, below, hbelow, hP, hrun⟩
      · rw [Ends, bind_of_error hrun]
        exact ⟨h, below, hP, b, sib, fault, hb, hs, hv, rfl⟩
      · rw [Ends, bind_of_ok hrun]
        apply ih
        · exact fullUnder_improved h hf value _
        · exact step s below b sib par value h hP hf hlt hv
        · simp [Store.improved, contains_put]
        · have := power_le_of_contains (h.root_contains (contains_of_find? hf.parent))
          rw [parent_power] at *
          omega
  rw [Ends, propagate, bind_of_ok (tree_run s)]
  simp only [h.root?_eq]
  apply hlevels _ s below h hP hbelow
  omega

/-- A propagation fails with the fault of a combination only. -/
theorem propagate_fault {failure : Failure} (h : s.tree.FullUnder root)
    (hbelow : s.tree.contains below = true)
    (hrun : propagate source below s = .error failure s') :
    ∃ nodes a b half fault,
      source.combine nodes a b half = .error fault ∧ failure = .fault fault := by
  have hends : Ends (propagate source below) s _ _ :=
    propagate_ends (P := fun _ _ => True) (fun _ _ _ _ _ _ _ _ _ _ _ => trivial) h trivial hbelow
  rw [ends_of_error hrun] at hends
  obtain ⟨-, last, -, b, sib, fault, -, -, hc, hfault⟩ := hends
  exact ⟨_, b.value, sib.value, last.half, fault, hc, hfault⟩

/-- What setting an improved parent keeps, the propagation keeps, however it ends. -/
theorem propagate_induction {P : Store V → Prop}
    (step : ∀ s below b sib par value, s.tree.FullUnder root → P s →
      s.tree.Family below b sib par → par.accuracy < min b.accuracy sib.accuracy →
      source.combine s.tree.size b.value sib.value below.half = .ok value →
      P (s.improved below par value (min b.accuracy sib.accuracy)))
    (h : s.tree.FullUnder root) (hP : P s) (hbelow : s.tree.contains below = true) :
    (final (propagate source below) s).tree.FullUnder root ∧
      P (final (propagate source below) s) := by
  have hends := propagate_ends (P := fun _ => P) step h hP hbelow
  apply Ends.final (P := fun s' => s'.tree.FullUnder root ∧ P s')
  apply hends.mono
  · rintro _ s' ⟨hfull, _, _, hP', _⟩
    exact ⟨hfull, hP'⟩
  · rintro _ s' ⟨hfull, _, hP', _⟩
    exact ⟨hfull, hP'⟩

/-- Where no parent can be improved any more, nothing lags behind. -/
theorem exact_of_improveParent_eq_none (h : s.tree.FullUnder root) (hx : s.tree.Rising below)
    (hbelow : s.tree.contains below = true)
    (hrun : improveParent source below s = .ok none s) : s.tree.Exact := by
  by_cases hne : below = root
  · subst hne
    exact hx.exact_of_root h
  · obtain ⟨b, sib, par, hf, -, -⟩ := h.exists_family hbelow hne
    apply hx.exact_of_le hf
    by_contra hlt
    rw [improveParent_run source h hne hf, if_neg hlt] at hrun
    split at hrun <;> cases hrun

/-- A propagation from a key that its parent lags behind makes up for it. -/
theorem propagate_exact (h : s.tree.FullUnder root) (hx : s.tree.Rising below)
    (hbelow : s.tree.contains below = true) :
    Ends (propagate source below) s
      (fun _ s' => s'.tree.FullUnder root ∧ s'.tree.Exact)
      (fun failure _ => ∃ nodes a b half fault, source.combine nodes a b half = .error fault ∧
        failure = .fault fault) := by
  refine (propagate_ends (P := fun below s => s.tree.Rising below) ?_ h hx hbelow).mono ?_ ?_
  · intro s below b sib par value _ hx hf hlt _
    exact hx.put hf hlt value
  · rintro _ s' ⟨hfull, last, hlast, hx', hrun⟩
    exact ⟨hfull, exact_of_improveParent_eq_none hfull hx' hlast hrun⟩
  · rintro failure s' ⟨-, last, -, b, sib, fault, -, -, hv, hfault⟩
    exact ⟨_, b.value, sib.value, last.half, fault, hv, hfault⟩

/-- In a tree with exact accuracies there is nothing to propagate. -/
theorem improveParent_of_exact (source : Source V) (h : s.tree.FullUnder root)
    (hx : s.tree.Exact) (key : DyadicInterval) : improveParent source key s = .ok none s := by
  cases hc : s.tree.contains key with
  | false => exact improveParent_missing source hc
  | true =>
    by_cases hne : key = root
    · exact hne ▸ improveParent_root source (hne ▸ h)
    · obtain ⟨b, sib, par, hf, -, -⟩ := h.exists_family hc hne
      have hacc := (hx key.parent par hf.parent).of_half hf.self hf.sibling
      rw [improveParent_run source h hne hf, if_pos hacc.ge]

end Work

end SignatureCache
