import SignatureCache.Proofs.Tree.Shape

/-!
# Improvement

Nodes are never removed, links stay once they are set, and a value is only replaced by a more
accurate one. So trees are ordered by what they can become. No tree can become better than itself
and come back, and the shape of a tree tells how good it is: a tree that has improved and still has
the same keys, links and accuracies has the same values, too.
-/

namespace SignatureCache

/-! ### Nodes -/

namespace Node

variable {V : Type} {node node' node'' : Node V}

/-- The second node is the first one, or an improvement of it: links are kept, and the value only
changes if the accuracy rises. -/
structure ImprovesTo (node node' : Node V) : Prop where
  parent?_eq : ∀ key, node.parent? = some key → node'.parent? = some key
  sibling?_eq : ∀ key, node.sibling? = some key → node'.sibling? = some key
  accuracy_le : node.accuracy ≤ node'.accuracy
  value_eq : node'.accuracy = node.accuracy → node'.value = node.value

theorem ImprovesTo.refl (node : Node V) : node.ImprovesTo node where
  parent?_eq _ := id
  sibling?_eq _ := id
  accuracy_le := le_rfl
  value_eq _ := rfl

theorem ImprovesTo.trans (h : node.ImprovesTo node') (h' : node'.ImprovesTo node'') :
    node.ImprovesTo node'' where
  parent?_eq key hkey := h'.parent?_eq key (h.parent?_eq key hkey)
  sibling?_eq key hkey := h'.sibling?_eq key (h.sibling?_eq key hkey)
  accuracy_le := h.accuracy_le.trans h'.accuracy_le
  value_eq heq := by
    -- The accuracy between two equal ones is equal to both.
    have hle := h.accuracy_le
    have hle' := h'.accuracy_le
    rw [h'.value_eq (by omega), h.value_eq (by omega)]

theorem ImprovesTo.antisymm (h : node.ImprovesTo node') (h' : node'.ImprovesTo node) :
    node' = node := by
  have hacc : node'.accuracy = node.accuracy := le_antisymm h'.accuracy_le h.accuracy_le
  have hvalue := h.value_eq hacc
  have hparent : node'.parent? = node.parent? :=
    Option.ext fun key => ⟨h'.parent?_eq key, h.parent?_eq key⟩
  have hsibling : node'.sibling? = node.sibling? :=
    Option.ext fun key => ⟨h'.sibling?_eq key, h.sibling?_eq key⟩
  cases node
  cases node'
  simp_all

/-- A node without links improves when it is linked. -/
theorem improvesTo_linked (hp : node.parent? = none) (hs : node.sibling? = none)
    (parent sibling : DyadicInterval) : node.ImprovesTo (node.linked parent sibling) where
  parent?_eq key hkey := by simp [hp] at hkey
  sibling?_eq key hkey := by simp [hs] at hkey
  accuracy_le := le_rfl
  value_eq _ := rfl

theorem improvesTo_improved {accuracy : Int} (h : node.accuracy < accuracy) (value : V) :
    node.ImprovesTo (node.improved value accuracy) where
  parent?_eq _ := id
  sibling?_eq _ := id
  accuracy_le := h.le
  value_eq heq := absurd heq h.ne'

end Node

/-! ### Trees -/

namespace Tree

open DyadicInterval

variable {V : Type} {t t' t'' : Tree V} {root leaf key : DyadicInterval} {node : Node V}

/-- The second tree has all keys of the first one, with nodes that are the same or improved. -/
def ImprovesTo (t t' : Tree V) : Prop :=
  ∀ key node, t.find? key = some node → ∃ node', t'.find? key = some node' ∧ node.ImprovesTo node'

theorem ImprovesTo.refl (t : Tree V) : t.ImprovesTo t :=
  fun _ node hnode => ⟨node, hnode, .refl node⟩

theorem ImprovesTo.trans (h : t.ImprovesTo t') (h' : t'.ImprovesTo t'') : t.ImprovesTo t'' := by
  intro key node hnode
  obtain ⟨node', hnode', hto⟩ := h key node hnode
  obtain ⟨node'', hnode'', hto'⟩ := h' key node' hnode'
  exact ⟨node'', hnode'', hto.trans hto'⟩

theorem ImprovesTo.contains (h : t.ImprovesTo t') (hkey : t.contains key = true) :
    t'.contains key = true := by
  obtain ⟨node, hnode⟩ := exists_find?_of_contains hkey
  obtain ⟨node', hnode', -⟩ := h key node hnode
  exact contains_of_find? hnode'

theorem ImprovesTo.ne_empty (h : t.ImprovesTo t') (hne : t ≠ empty) : t' ≠ empty := by
  rintro rfl
  apply hne
  apply ext_find?
  intro key
  rw [find?_empty]
  cases hnode : t.find? key with
  | none => rfl
  | some node =>
    obtain ⟨node', hnode', -⟩ := h key node hnode
    simp at hnode'

/-- No tree improves to another one and back. -/
theorem ImprovesTo.antisymm (h : t.ImprovesTo t') (h' : t'.ImprovesTo t) : t' = t := by
  apply ext_find?
  intro key
  cases hnode : t.find? key with
  | none =>
    apply find?_eq_none_of_not_contains
    rw [Bool.eq_false_iff]
    intro hkey
    obtain ⟨node, hnode'⟩ := exists_find?_of_contains (h'.contains hkey)
    cases hnode.symm.trans hnode'
  | some node =>
    obtain ⟨node', hnode', hto⟩ := h key node hnode
    obtain ⟨node₀, hnode₀, hback⟩ := h' key node' hnode'
    cases hnode.symm.trans hnode₀
    rw [hnode', hto.antisymm hback]

/-- A tree that has improved and kept its shape is what it was, values included. -/
theorem ImprovesTo.eq_of_sameShape (h : t.ImprovesTo t') (hshape : SameShape t t') : t' = t := by
  apply hshape.eq
  intro key node node' hnode hnode'
  obtain ⟨node₁, hnode₁, hto⟩ := h key node hnode
  cases hnode'.symm.trans hnode₁
  apply hto.value_eq
  simpa [accuracy?, hnode, hnode'] using hshape.accuracy?_eq key

/-! ### The edits -/

theorem improvesTo_put (hnode : t.find? key = some node) {node' : Node V}
    (h : node.ImprovesTo node') : t.ImprovesTo (t.put key node') := by
  intro other node₁ hnode₁
  by_cases heq : key = other
  · subst heq
    cases hnode.symm.trans hnode₁
    exact ⟨node', find?_put_self t key node', h⟩
  · exact ⟨node₁, (find?_put_of_ne t node' heq).trans hnode₁, .refl node₁⟩

theorem FullUnder.improvesTo_halved (h : t.FullUnder root) (hleaf : t.contains leaf = true)
    (hl : t.contains leaf.left = false) (leftValue rightValue : V) :
    t.ImprovesTo (t.halved leaf leftValue rightValue) := by
  intro key node hnode
  exact ⟨node, (h.find?_halved hleaf hl (contains_of_find? hnode)).trans hnode, .refl node⟩

theorem FullUnder.improvesTo_grown (h : t.FullUnder root) (hnode : t.find? root = some node)
    (neighbourValue value : V) : t.ImprovesTo (t.grown root node neighbourValue value) := by
  intro key node₁ hnode₁
  by_cases heq : key = root
  · subst heq
    cases hnode.symm.trans hnode₁
    refine ⟨_, find?_grown_root, Node.improvesTo_linked ?_ ?_ _ _⟩
    · rw [← parent?_of_find? hnode, h.unlinked.1]
    · rw [← sibling?_of_find? hnode, h.unlinked.2]
  · exact ⟨node₁, (h.find?_grown (contains_of_find? hnode₁) heq).trans hnode₁, .refl node₁⟩

end Tree

end SignatureCache
