import SignatureCache.Proofs.Cache.Deeds
import SignatureCache.Proofs.Cache.Invariants

/-!
# The steps of a store

Deeds come with the program that does them: a split carries its whole propagation. Taken apart, and
looked at from the store alone, whatever the values are that a source gives, only six things ever
happen: an interval is counted as asked for, or as answered at once; a root is planted; it is grown;
a leaf is halved; or one parent is improved, and then it is more accurate by exactly one. Sources
that can combine make all work a sequence of these steps, however it ends. So what each of the six
does to the tree and to the counters, it does along every run.
-/

namespace SignatureCache

open DyadicInterval SignatureCache.Tree

namespace Store

variable {V : Type}

/-- One change of a store. -/
inductive Step : Store V → Store V → Prop
  | ask (s : Store V) : Step s s.asked
  | hit (s : Store V) : Step s s.answered
  | plant {s : Store V} (hempty : s.tree = empty) (I : DyadicInterval) (value : V) :
      Step s (s.planted I value)
  | grow {s : Store V} {root : DyadicInterval} {node : Node V} (h : s.tree.FullUnder root)
      (hnode : s.tree.find? root = some node) (neighbourValue value : V) :
      Step s (s.grown root node neighbourValue value)
  | halve {s : Store V} {root leaf : DyadicInterval} (h : s.tree.FullUnder root)
      (hleaf : s.tree.contains leaf = true) (hl : s.tree.contains leaf.left = false)
      (leftValue rightValue : V) : Step s (s.halved leaf leftValue rightValue)
  | improve {s : Store V} {root below : DyadicInterval} {b sib par : Node V}
      (h : s.tree.FullUnder root) (hf : s.tree.Family below b sib par)
      (hgain : min b.accuracy sib.accuracy = par.accuracy + 1) (value : V) :
      Step s (s.improved below par value (min b.accuracy sib.accuracy))

/-- A run, one step after the other. -/
abbrev Steps : Store V → Store V → Prop :=
  Relation.ReflTransGen Step

end Store

namespace Work

open Store

variable {V : Type} {source : Source V} {deed : Deed} {root start below leaf : DyadicInterval}
  {s s' : Store V}

/-! ### Taking a propagation apart -/

theorem Raise.eq_improved (h : s.tree.FullUnder root) (hr : Raise source below s s') :
    ∃ b sib par value, s.tree.Family below b sib par ∧
      min b.accuracy sib.accuracy = par.accuracy + 1 ∧
      s' = s.improved below par value (min b.accuracy sib.accuracy) := by
  obtain ⟨hstep, ⟨node, node', hnode, hnode', hgain⟩, -⟩ := hr
  rcases improveParent_cases source h below with hrun | ⟨b, sib, fault, -, -, -, hrun⟩ |
    ⟨b, sib, par, value, hf, -, -, hrun⟩
  · cases hstep.symm.trans hrun
  · cases hstep.symm.trans hrun
  · cases hstep.symm.trans hrun
    cases hnode.symm.trans hf.parent
    cases hnode'.symm.trans (find?_put_self _ _ _)
    exact ⟨b, sib, node, value, hf, hgain, rfl⟩

theorem Climb.steps (hc : Climb source start s below s') (h : s.tree.FullUnder root) :
    Steps s s' ∧ s'.tree.FullUnder root := by
  induction hc with
  | refl => exact ⟨.refl, h⟩
  | tail _ raise ih =>
    obtain ⟨hsteps, hfull⟩ := ih
    obtain ⟨b, sib, par, value, hf, hgain, rfl⟩ := raise.eq_improved hfull
    exact ⟨hsteps.tail (.improve hfull hf hgain value), fullUnder_improved hfull hf value _⟩

/-- A split halves a leaf and climbs from there until accuracies are exact again. -/
theorem split_climbs {node : Node V} (combines : source.Combines) (h : s.tree.Full)
    (hx : s.tree.Exact) (hnode : s.tree.find? leaf = some node)
    (hl : s.tree.contains leaf.left = false) (leftValue rightValue : V) :
    ∃ root last, s.tree.FullUnder root ∧
      (final (propagate source leaf.left) (s.halved leaf leftValue rightValue)).tree.Exact ∧
      Climb source leaf.left (s.halved leaf leftValue rightValue) last
        (final (propagate source leaf.left) (s.halved leaf leftValue rightValue)) := by
  have hleaf := contains_of_find? hnode
  obtain ⟨root, hroot⟩ := h.exists_fullUnder hleaf
  obtain ⟨last, s₁, hrun, -, hexact, hclimb⟩ :=
    propagate_climbs (s := s.halved leaf leftValue rightValue) combines
      (hroot.halved hleaf hl leftValue rightValue) (hx.rising_halved hroot hleaf hl)
      (contains_halved.2 (.inl rfl))
  rw [final_of_ok hrun]
  exact ⟨root, last, hroot, hexact, hclimb⟩

/-! ### Every deed is a sequence of steps -/

theorem Does.exact (hd : Does source deed s s') (combines : source.Combines) (h : s.tree.Full)
    (hx : s.tree.Exact) : s'.tree.Exact := by
  cases hd with
  | ask => exact hx
  | hit => exact hx
  | plant hempty =>
    rw [Store.planted, hempty]
    exact exact_plant _ _
  | compute => exact hx
  | grow hroot hnode => exact hx.grown hroot hnode
  | @split _ leaf node leftValue rightValue hnode hl =>
    obtain ⟨-, -, -, hexact, -⟩ := split_climbs combines h hx hnode hl leftValue rightValue
    exact hexact

theorem Does.steps (hd : Does source deed s s') (combines : source.Combines) (h : s.tree.Full)
    (hx : s.tree.Exact) : Steps s s' := by
  cases hd with
  | ask => exact .single (.ask s)
  | hit => exact .single (.hit s)
  | plant hempty => exact .single (.plant hempty _ _)
  | compute _ _ _ hc =>
    -- A value that could not be combined would be lost here.
    obtain ⟨value, hv⟩ := combines _ _ _ _
    cases hc.symm.trans hv
  | grow hroot hnode => exact .single (.grow hroot hnode _ _)
  | @split _ leaf node leftValue rightValue hnode hl =>
    obtain ⟨root, last, hroot, -, hclimb⟩ :=
      split_climbs combines h hx hnode hl leftValue rightValue
    have hleaf := contains_of_find? hnode
    have hsteps := (hclimb.steps (hroot.halved hleaf hl leftValue rightValue)).1
    exact .head (.halve hroot hleaf hl leftValue rightValue) hsteps

end Work

namespace Cache

open Work Store

variable {V : Type} {cache : Cache V} {requests : List (Request V)}

/-- What every deed keeps in full trees with exact accuracies holds after all requests, if their
sources can combine. -/
theorem after_deeds {P : Store V → Prop} (combines : ∀ request ∈ requests, request.source.Combines)
    (step : ∀ request ∈ requests, ∀ deed s s', s.tree.Full → s.tree.Exact → P s →
      Does request.source deed s s' → P s')
    (h : cache.store.tree.Full) (hx : cache.store.tree.Exact) (start : P cache.store) :
    P (cache.after requests).store := by
  obtain ⟨deeds, history⟩ := exists_history cache requests h
  refine (history.induction (P := fun _ s => s.tree.Full ∧ s.tree.Exact ∧ P s) [] ?_
    ⟨h, hx, start⟩).2.2
  rintro request hrequest - deed s s' ⟨hfull, hexact, hP⟩ hd
  exact ⟨hd.full hfull, hd.exact (combines request hrequest) hfull hexact,
    step request hrequest deed s s' hfull hexact hP hd⟩

/-- Requests whose sources can combine are a sequence of steps, answered or not. -/
theorem after_steps (combines : ∀ request ∈ requests, request.source.Combines)
    (h : cache.store.tree.Full) (hx : cache.store.tree.Exact) :
    Steps cache.store (cache.after requests).store := by
  apply after_deeds (P := Steps cache.store) combines _ h hx .refl
  intro request hrequest deed s s' hfull hexact hsteps hd
  exact hsteps.trans (hd.steps (combines request hrequest) hfull hexact)

/-- One run from a new cache passes through the stores after some requests and after some more. -/
theorem new_steps (policy : Policy) (dissection : Dissection) {earlier later : List (Request V)}
    (combines : ∀ request ∈ earlier ++ later, request.source.Combines) :
    let cache : Cache V := { policy, dissection }
    Steps cache.store (cache.after earlier).store ∧
      Steps (cache.after earlier).store (cache.after (earlier ++ later)).store := by
  intro cache
  have hearlier : ∀ request ∈ earlier, request.source.Combines :=
    fun request hmem => combines request (List.mem_append_left _ hmem)
  have hlater : ∀ request ∈ later, request.source.Combines :=
    fun request hmem => combines request (List.mem_append_right _ hmem)
  obtain ⟨hfull, hexact⟩ : (cache.after earlier).store.tree.Full ∧
      (cache.after earlier).store.tree.Exact :=
    after_exact hearlier (.inl rfl) exact_empty
  refine ⟨after_steps hearlier (.inl rfl) exact_empty, ?_⟩
  rw [after_append]
  exact after_steps hlater hfull hexact

end Cache

end SignatureCache
