import Mathlib
import SignatureCache.Proofs.Cache.Requests

/-!
# What holds after all requests

The shape of the tree survives every move, so it is that of a full binary tree after any sequence of
requests, whatever their sources refuse. Exact accuracies survive the moves of sources that can
combine. They are what makes it right to end a propagation at the first parent that does not
improve: each step raises one parent by one, and at the end there is nothing left to raise.
-/

namespace SignatureCache

open DyadicInterval SignatureCache.Tree

variable {V : Type}

namespace Work

variable {source : Source V} {I : DyadicInterval} {resolution : Int} {s s' : Store V}

/-! ### Exact accuracies -/

theorem exact_empty : (empty : Tree V).Exact := by
  intro key node hnode
  simp at hnode

theorem Move.exact (hm : Move source I resolution s s') (combines : source.Combines)
    (h : s.tree.Full) (hx : s.tree.Exact) : s'.tree.Exact := by
  cases hm with
  | ask => exact hx
  | hit => exact hx
  | plant hempty =>
    rw [Store.planted, hempty]
    exact exact_plant I _
  | compute root => exact hx
  | grow hroot _ _ hnode => exact hx.grown hroot hnode
  | @split leaf node leftValue rightValue hnode hl _ _ =>
    have hleaf := contains_of_find? hnode
    obtain ⟨root, hroot⟩ := h.exists_fullUnder hleaf
    have hends : Ends (propagate source leaf.left) (s.halved leaf leftValue rightValue) _ _ :=
      propagate_exact (hroot.halved hleaf hl leftValue rightValue)
        (hx.rising_halved hroot hleaf hl) (contains_halved.2 (.inl rfl))
    apply Ends.final (P := fun s' => s'.tree.Exact)
    apply hends.mono
    · exact fun _ _ hend => hend.2
    · rintro _ s' ⟨nodes, a, b, half, fault, hv, -⟩
      obtain ⟨value, hv'⟩ := combines nodes a b half
      cases hv.symm.trans hv'

theorem Moves.exact (hm : Moves source I resolution s s') (combines : source.Combines)
    (h : s.tree.Full) (hx : s.tree.Exact) : s'.tree.Full ∧ s'.tree.Exact := by
  apply hm.keep (P := fun s => s.tree.Full ∧ s.tree.Exact) _ ⟨h, hx⟩
  rintro s s' ⟨h, hx⟩ hm
  exact ⟨hm.full h, hm.exact combines h hx⟩

/-! ### The climb of a propagation -/

/-- One step of a propagation: the parent is improved and gains exactly one, and no other node
changes. -/
structure Raise (source : Source V) (below : DyadicInterval) (s s' : Store V) : Prop where
  run : improveParent source below s = .ok (some below.parent) s'
  gain : ∃ node node', s.tree.find? below.parent = some node ∧
    s'.tree.find? below.parent = some node' ∧ node'.accuracy = node.accuracy + 1
  frame : ∀ key, key ≠ below.parent → s'.tree.find? key = s.tree.find? key

/-- The steps of a propagation from a key upward. -/
inductive Climb (source : Source V) (start : DyadicInterval) (s : Store V) :
    DyadicInterval → Store V → Prop
  | refl : Climb source start s start s
  | tail {below : DyadicInterval} {s₁ s₂ : Store V} (climb : Climb source start s below s₁)
      (raise : Raise source below s₁ s₂) : Climb source start s below.parent s₂

theorem raise_improved {root below : DyadicInterval} {b sib par : Node V} {value : V}
    (h : s.tree.FullUnder root) (hx : s.tree.Rising below) (hf : s.tree.Family below b sib par)
    (hlt : par.accuracy < min b.accuracy sib.accuracy)
    (hc : source.combine s.tree.size b.value sib.value below.half = .ok value) :
    Raise source below s (s.improved below par value (min b.accuracy sib.accuracy)) := by
  have hne : below ≠ root := by
    rintro rfl
    have hout := h.not_contains_parent_root
    rw [contains_of_find? hf.parent] at hout
    cases hout
  refine ⟨?_, ?_, ?_⟩
  · rw [improveParent_run source h hne hf, if_neg (not_le.2 hlt), hc]
  · exact ⟨par, _, hf.parent, find?_put_self _ _ _, hx.gain hf hlt⟩
  · exact fun key hkey => find?_put_of_ne _ _ hkey.symm

/-- A propagation from a key that its parent lags behind climbs to where nothing lags behind. -/
theorem propagate_climbs {root below : DyadicInterval} (combines : source.Combines)
    (h : s.tree.FullUnder root) (hx : s.tree.Rising below)
    (hbelow : s.tree.contains below = true) :
    ∃ last s', propagate source below s = .ok () s' ∧ s'.tree.FullUnder root ∧ s'.tree.Exact ∧
      Climb source below s last s' := by
  have hends : Ends (propagate source below) s _ _ :=
    propagate_ends (P := fun key s' => s'.tree.Rising key ∧ Climb source below s key s')
      (fun s' key b sib par value hfull hP hf hlt hc =>
        ⟨hP.1.put hf hlt value, hP.2.tail (raise_improved hfull hP.1 hf hlt hc)⟩)
      h ⟨hx, .refl⟩ hbelow
  cases hrun : propagate source below s with
  | ok _ s' =>
    rw [ends_of_ok hrun] at hends
    obtain ⟨hfull, last, hlast, ⟨hrising, hclimb⟩, hstop⟩ := hends
    exact ⟨last, s', rfl, hfull, exact_of_improveParent_eq_none hfull hrising hlast hstop, hclimb⟩
  | error failure s' =>
    rw [ends_of_error hrun] at hends
    obtain ⟨-, last, -, b, sib, fault, -, -, hc, -⟩ := hends
    obtain ⟨value, hv⟩ := combines _ b.value sib.value last.half
    cases hc.symm.trans hv

end Work

namespace Cache

open Work

variable {cache : Cache V} {requests : List (Request V)}

theorem after_full (h : cache.store.tree.Full) : (cache.after requests).store.tree.Full := by
  apply after_induction (P := fun s => s.tree.Full) (fun _ => id) _ h
  exact fun _ _ _ _ _ _ _ h hm => hm.full h

theorem after_exact (combines : ∀ request ∈ requests, request.source.Combines)
    (h : cache.store.tree.Full) (hx : cache.store.tree.Exact) :
    (cache.after requests).store.tree.Full ∧ (cache.after requests).store.tree.Exact := by
  apply after_induction (P := fun s => s.tree.Full ∧ s.tree.Exact) (fun _ hs => hs.1) _ ⟨h, hx⟩
  rintro request hrequest _ _ _ s s' ⟨h, hx⟩ hm
  exact ⟨hm.full h, hm.exact (combines request hrequest) h hx⟩

/-- After any requests to an empty cache, answered or not, the tree is empty or a full binary tree
under its first key, and one half of a key tells whether anything lies below it. -/
theorem full_after_requests (policy : Policy) (dissection : Dissection)
    (requests : List (Request V)) :
    let t := (({ policy, dissection } : Cache V).after requests).store.tree
    t ≠ empty → ∃ root, t.root? = some root ∧ t.FullUnder root ∧
      ∀ key, t.contains key = true →
        (t.contains key.left = false ↔ t.contains key.right = false) ∧
        (t.contains key.left = false ↔
          ∀ J, t.contains J = true → key.contains J = true → J = key) ∧
        ∀ leaf, t.isLeaf? key = .ok leaf →
          (leaf = true ↔ ∀ J, t.contains J = true → key.contains J = true → J = key) := by
  intro t hne
  obtain ⟨root, h⟩ : ∃ root, t.FullUnder root := (after_full (.inl rfl)).resolve_left hne
  refine ⟨root, h.root?_eq, h, ?_⟩
  intro key hkey
  refine ⟨⟨h.not_contains_right hkey, ?_⟩, h.not_contains_left_iff hkey, ?_⟩
  · intro hr
    rw [Bool.eq_false_iff] at hr ⊢
    exact fun hl => hr (h.contains_right_of_left hkey hl)
  · intro leaf hleaf
    rw [← h.not_contains_left_iff hkey]
    rcases t.isLeaf?_cases key with ⟨fault, -, hq⟩ | ⟨-, hq⟩
    · rw [hq] at hleaf
      cases hleaf
    · cases hq.symm.trans hleaf
      rw [Bool.not_eq_true']

/-- After any requests to an empty cache, answered or not, a leaf is as accurate as its own power
and every other key as accurate as the worse of its halves, so as the worst leaf below it. When a
query splits a leaf from there, the propagation raises one parent after another by one, and where it
ends no step from any key would change a node. -/
theorem exact_after_requests (policy : Policy) (dissection : Dissection)
    (requests : List (Request V)) (combines : ∀ request ∈ requests, request.source.Combines) :
    let s := (({ policy, dissection } : Cache V).after requests).store
    (∀ key node, s.tree.find? key = some node →
      s.tree.ExactAt key node ∧ s.tree.LeastPower key node.accuracy) ∧
    ∀ source : Source V, source.Combines → ∀ I resolution s', Moves source I resolution s s' →
      ∀ leaf, s'.tree.contains leaf = true → s'.tree.contains leaf.left = false →
      ∀ leftValue rightValue activity, ∃ t last s₂,
        insertHalves leaf leaf.left leaf.right leftValue rightValue s'.tree = .ok () t ∧
        propagate source leaf.left ⟨t, activity⟩ = .ok () s₂ ∧
        Climb source leaf.left ⟨t, activity⟩ last s₂ ∧
        ∀ (other : Source V) key, improveParent other key s₂ = .ok none s₂ := by
  intro s
  obtain ⟨h, hx⟩ : s.tree.Full ∧ s.tree.Exact := after_exact combines (.inl rfl) exact_empty
  refine ⟨?_, ?_⟩
  · intro key node hnode
    obtain ⟨root, hroot⟩ := h.exists_fullUnder (contains_of_find? hnode)
    exact ⟨hx key node hnode, hx.least hroot hnode⟩
  · intro source hsource I resolution s' hm leaf hleaf hl leftValue rightValue activity
    obtain ⟨h', hx'⟩ := hm.exact hsource h hx
    obtain ⟨root, hroot⟩ := h'.exists_fullUnder hleaf
    have hr := hroot.not_contains_right hleaf hl
    obtain ⟨last, s₂, hrun, hfull, hend, hclimb⟩ :=
      propagate_climbs (s := ⟨s'.tree.halved leaf leftValue rightValue, activity⟩) hsource
        (hroot.halved hleaf hl leftValue rightValue) (hx'.rising_halved hroot hleaf hl)
        (contains_halved.2 (.inl rfl))
    exact ⟨_, last, s₂, insertHalves_run hleaf hl hr leftValue rightValue, hrun, hclimb,
      fun other key => improveParent_of_exact other hfull hend key⟩

/-- A query grows the root over a tree that is finer on one side: the root is as accurate as the new
side, and so is all that `exact_after_requests` says. -/
theorem exact_after_growth :
    let T : Transcript := ⟨"v", [], false, some []⟩
    let s := (({} : Cache String).after
      [⟨T.source, .dyadic ⟨0, 0⟩, 2⟩, ⟨T.source, .dyadic ⟨1, 0⟩, 1⟩]).store
    s.tree.accuracy? ⟨0, 0⟩ = some 2 ∧ s.tree.accuracy? ⟨0, -1⟩ = some 1 ∧
      ∀ key node, s.tree.find? key = some node →
        s.tree.ExactAt key node ∧ s.tree.LeastPower key node.accuracy := by
  dsimp only
  refine ⟨by cbv, by cbv, (exact_after_requests {} Dissection.onGrid _ ?_).1⟩
  intro request hrequest
  simp only [List.mem_cons, List.not_mem_nil, or_false] at hrequest
  rcases hrequest with rfl | rfl
  · exact Transcript.combines _
  · exact Transcript.combines _

end Cache

end SignatureCache
