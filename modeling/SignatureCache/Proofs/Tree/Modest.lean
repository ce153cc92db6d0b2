import SignatureCache.Proofs.Tree.Accuracy

/-!
# Modest accuracies

A combination that breaks off ends a propagation early, and accuracies are no longer exact. They
then are too low, never too high: a leaf is as accurate as its own power, and a key at most as
accurate as either of its halves. This is all that a walk relies on. A key that is accurate enough
has nothing under it that is not, and a leaf that is not has no key above it that is.
-/

namespace SignatureCache

namespace Tree

open DyadicInterval

variable {V : Type}

/-- One key is at most as accurate as its halves. -/
structure ModestAt (t : Tree V) (key : DyadicInterval) (node : Node V) : Prop where
  leaf : t.contains key.left = false → node.accuracy = key.power
  inner : ∀ {l r}, t.find? key.left = some l → t.find? key.right = some r →
    node.accuracy ≤ min l.accuracy r.accuracy

/-- Every key is at most as accurate as its halves. -/
def Modest (t : Tree V) : Prop :=
  ∀ key node, t.find? key = some node → t.ModestAt key node

variable {t : Tree V} {root key J : DyadicInterval} {node : Node V} {desired : Int}

theorem ExactAt.modestAt (hx : t.ExactAt key node) : t.ModestAt key node :=
  ⟨hx.leaf, fun hl hr => (hx.inner hl hr).le⟩

theorem Exact.modest (hx : t.Exact) : t.Modest :=
  fun key node hnode => (hx key node hnode).modestAt

theorem ModestAt.le_of_half {below : DyadicInterval} {b sib : Node V}
    (hm : t.ModestAt below.parent node) (hb : t.find? below = some b)
    (hs : t.find? below.sibling = some sib) : node.accuracy ≤ min b.accuracy sib.accuracy := by
  rcases eq_left_or_eq_right below with h | h
  · rw [h, sibling_left] at hs
    rw [h] at hb
    exact hm.inner hb hs
  · rw [h, sibling_right] at hs
    rw [h] at hb
    rw [min_comm]
    exact hm.inner hs hb

/-! ### Accuracies and leaves -/

/-- No key is more accurate than a leaf under it. -/
theorem Modest.accuracy_le (hm : t.Modest) (h : t.FullUnder root) (hnode : t.find? key = some node)
    (hJ : t.contains J = true) (hl : t.contains J.left = false) (hc : key.contains J = true) :
    node.accuracy ≤ J.power := by
  have hkey := contains_of_find? hnode
  revert node
  refine h.induction (P := fun key => key.contains J = true → ∀ {node}, t.find? key = some node →
    node.accuracy ≤ J.power) ?_ ?_ hkey hc
  · intro key hkey hleaf hc node hnode
    rw [h.eq_of_not_contains_left hkey hleaf hJ hc, (hm key node hnode).leaf hleaf]
  · intro key hkey hleft hright ihl ihr hc node hnode
    have hne : J ≠ key := by
      rintro rfl
      simp [hleft] at hl
    obtain ⟨l, hfl⟩ := exists_find?_of_contains hleft
    obtain ⟨r, hfr⟩ := exists_find?_of_contains hright
    have hle := (hm key node hnode).inner hfl hfr
    rcases left_contains_or_right_contains hc hne with hcl | hcr
    · exact hle.trans ((min_le_left _ _).trans (ihl hcl hfl))
    · exact hle.trans ((min_le_right _ _).trans (ihr hcr hfr))

/-- Under a key that is accurate enough nothing is missing down to that accuracy. -/
theorem Modest.contains_of_le (hm : t.Modest) (h : t.FullUnder root)
    (hnode : t.find? key = some node) (hacc : desired ≤ node.accuracy)
    (hc : key.contains J = true) (hp : J.power ≤ desired) : t.contains J = true := by
  obtain ⟨n, rfl⟩ := contains_iff_ancestor.1 hc
  induction n generalizing J with
  | zero =>
    rw [ancestor_zero] at hnode
    exact contains_of_find? hnode
  | succ n ih =>
    rw [← ancestor_parent] at hnode
    have hparent : t.contains J.parent = true :=
      ih (by rw [parent_power]; omega) hnode (contains_ancestor _ n)
    have hl : t.contains J.parent.left = true := by
      by_contra hno
      have hle := hm.accuracy_le h hnode hparent (Bool.eq_false_iff.2 hno) (contains_ancestor _ n)
      rw [parent_power] at hle
      omega
    rcases eq_left_or_eq_right J with heq | heq
    · rwa [heq]
    · rw [heq]
      exact h.contains_right_of_left hparent hl

/-! ### The edits -/

theorem modest_empty : (empty : Tree V).Modest := by
  intro key node hnode
  simp at hnode

/-- Modesty at a key only depends on its halves. -/
theorem ModestAt.congr {t' : Tree V} (hm : t.ModestAt key node)
    (hl : t'.find? key.left = t.find? key.left) (hr : t'.find? key.right = t.find? key.right) :
    t'.ModestAt key node := by
  refine ⟨?_, ?_⟩
  · intro hno
    apply hm.leaf
    rwa [contains_eq_isSome, ← hl, ← contains_eq_isSome]
  · intro l r hfl hfr
    exact hm.inner (hl ▸ hfl) (hr ▸ hfr)

theorem Modest.halved {leaf : DyadicInterval} (hm : t.Modest) (h : t.FullUnder root)
    (hleaf : t.contains leaf = true) (hl : t.contains leaf.left = false)
    (leftValue rightValue : V) : (t.halved leaf leftValue rightValue).Modest := by
  intro key node hnode
  rcases contains_halved.1 (contains_of_find? hnode) with rfl | rfl | hkey
  · rw [find?_halved_left] at hnode
    cases hnode
    have hno := h.not_contains_left_half hleaf hl (contains_left leaf) rfl leftValue rightValue
    exact (exactAt_new_leaf hno rfl).modestAt
  · rw [find?_halved_right] at hnode
    cases hnode
    have hno := h.not_contains_left_half hleaf hl (contains_right leaf) rfl leftValue rightValue
    exact (exactAt_new_leaf hno rfl).modestAt
  · rw [h.find?_halved hleaf hl hkey] at hnode
    by_cases hne : key = leaf
    · subst hne
      have hacc := (hm key node hnode).leaf hl
      refine ⟨fun _ => hacc, ?_⟩
      intro l r hfl hfr
      rw [find?_halved_left] at hfl
      rw [find?_halved_right] at hfr
      cases hfl
      cases hfr
      simp only
      omega
    · obtain ⟨hL, hR⟩ := t.find?_halved_halves leftValue rightValue hne
      exact (hm key node hnode).congr hL hR

theorem Modest.grown {neighbourValue value : V} (hm : t.Modest) (h : t.FullUnder root)
    (hroot : t.find? root = some node) : (t.grown root node neighbourValue value).Modest := by
  intro key node' hnode
  rcases h.contains_grown.1 (contains_of_find? hnode) with rfl | rfl | hkey
  · rw [find?_grown_sibling] at hnode
    cases hnode
    exact (h.exactAt_grown_sibling node neighbourValue value).modestAt
  · rw [find?_grown_parent] at hnode
    cases hnode
    exact (exactAt_parent find?_grown_root find?_grown_sibling rfl).modestAt
  · obtain ⟨hleft, hright⟩ := h.find?_grown_halves hkey node neighbourValue value
    by_cases heq : key = root
    · subst heq
      rw [find?_grown_root] at hnode
      cases hnode
      have hmr := hm key node hroot
      exact ModestAt.congr ⟨hmr.leaf, hmr.inner⟩ hleft hright
    · rw [h.find?_grown hkey heq] at hnode
      exact (hm key node' hnode).congr hleft hright

/-- A key that is improved from its halves stays modest, and leaves the others so. -/
theorem Modest.put {below : DyadicInterval} {b sib par : Node V} (hm : t.Modest)
    (hf : t.Family below b sib par) (hlt : par.accuracy < min b.accuracy sib.accuracy)
    (value : V) :
    (t.put below.parent (par.improved value (min b.accuracy sib.accuracy))).Modest := by
  have hself := find?_put_self t below.parent
    (par.improved value (min b.accuracy sib.accuracy))
  have hold : ∀ {key}, key ≠ below.parent →
      (t.put below.parent (par.improved value (min b.accuracy sib.accuracy))).find? key =
        t.find? key :=
    fun hne => find?_put_of_ne _ _ hne.symm
  -- Whatever node a key has now, it was no more accurate before.
  have hmore : ∀ {key node}, (t.put below.parent
      (par.improved value (min b.accuracy sib.accuracy))).find? key = some node →
      ∃ old, t.find? key = some old ∧ old.accuracy ≤ node.accuracy := by
    intro key node hnode
    by_cases heq : key = below.parent
    · subst heq
      cases hself.symm.trans hnode
      exact ⟨par, hf.parent, hlt.le⟩
    · rw [hold heq] at hnode
      exact ⟨node, hnode, le_rfl⟩
  intro key node hnode
  by_cases heq : key = below.parent
  · subst heq
    cases hself.symm.trans hnode
    apply (exactAt_parent ((hold (parent_ne below).symm).trans hf.self) _ rfl).modestAt
    rw [hold _, hf.sibling]
    intro heq
    exact parent_ne below.sibling (by rw [parent_sibling, heq])
  · rw [hold heq] at hnode
    refine ⟨?_, ?_⟩
    · intro hl
      rw [contains_put_of_contains (contains_of_find? hf.parent)] at hl
      exact (hm key node hnode).leaf hl
    · intro l r hfl hfr
      obtain ⟨l', hl', hle⟩ := hmore hfl
      obtain ⟨r', hr', hre⟩ := hmore hfr
      exact ((hm key node hnode).inner hl' hr').trans (min_le_min hle hre)

end Tree

end SignatureCache
