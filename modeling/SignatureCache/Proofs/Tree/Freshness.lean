import SignatureCache.Proofs.Tree.Modest

/-!
# Fresh values

The value of a key with halves is the product of two values, but not always of those that its halves
have now: a half that has become more accurate than the key since has another value. A key is fresh
if the half that is no more accurate than the key still has the value that went into the product.
Between adding two halves and the first step of the propagation only the leaf that was split is not
fresh, and it can be improved. The accuracy that improves a key exceeds that of its parent, which
therefore stays fresh with the old value.
-/

namespace SignatureCache

namespace Tree

open DyadicInterval

variable {V : Type}

/-- The value of a key is a product, and a half that is as accurate as the key has the value that
went into it. -/
structure FreshAt (mul : V → V → V) (t : Tree V) (key : DyadicInterval) (node : Node V) :
    Prop where
  product : ∀ {l r}, t.find? key.left = some l → t.find? key.right = some r →
    ∃ a b, node.value = mul a b ∧ (l.accuracy = node.accuracy → a = l.value) ∧
      (r.accuracy = node.accuracy → b = r.value)

/-- Every key is fresh. -/
def Fresh (mul : V → V → V) (t : Tree V) : Prop :=
  ∀ key node, t.find? key = some node → FreshAt mul t key node

/-- Every key is fresh but the parent of `below`, which can be improved if it is not. -/
structure Refreshing (mul : V → V → V) (t : Tree V) (below : DyadicInterval) : Prop where
  freshAt : ∀ {key node}, t.find? key = some node → key ≠ below.parent → FreshAt mul t key node
  pending : ∀ {b sib par}, t.Family below b sib par →
    par.accuracy < min b.accuracy sib.accuracy ∨ FreshAt mul t below.parent par

/-- The product of the values `levels` levels below an interval, half by half and from left to
right. -/
def balancedProduct (mul : V → V → V) (value : DyadicInterval → V) : Nat → DyadicInterval → V
  | 0, key => value key
  | levels + 1, key =>
    mul (balancedProduct mul value levels key.left) (balancedProduct mul value levels key.right)

/-- All leaves under a key have one power, and `value` gives their values. -/
def EvenUnder (t : Tree V) (key : DyadicInterval) (power : Int) (value : DyadicInterval → V) :
    Prop :=
  ∀ J leaf, t.find? J = some leaf → t.contains J.left = false → key.contains J = true →
    J.power = power ∧ leaf.value = value J

variable {mul : V → V → V} {t t' : Tree V} {root key below J : DyadicInterval}
  {node b sib par : Node V} {power : Int} {value : DyadicInterval → V}

theorem fresh_empty (mul : V → V → V) : Fresh mul (empty : Tree V) := by
  intro key node hnode
  simp at hnode

theorem freshAt_leaf (mul : V → V → V) (node : Node V) (hl : t.contains key.left = false) :
    FreshAt mul t key node := by
  refine ⟨?_⟩
  intro l r hfl _
  rw [contains_of_find? hfl] at hl
  cases hl

/-- Freshness at a key only depends on its halves. -/
theorem FreshAt.congr (h : FreshAt mul t key node) (hl : t'.find? key.left = t.find? key.left)
    (hr : t'.find? key.right = t.find? key.right) : FreshAt mul t' key node :=
  ⟨fun hfl hfr => h.product (hl ▸ hfl) (hr ▸ hfr)⟩

/-- A key is fresh if its value is the product of those that its halves have. -/
theorem freshAt_parent (hb : t.find? below = some b) (hs : t.find? below.sibling = some sib)
    (hleft : below.half = .left → node.value = mul b.value sib.value)
    (hright : below.half = .right → node.value = mul sib.value b.value) :
    FreshAt mul t below.parent node := by
  refine ⟨?_⟩
  intro l r hl hr
  cases hh : below.half with
  | left =>
    have heq := eq_left_of_half hh
    rw [heq, sibling_left] at hs
    rw [heq] at hb
    cases hb.symm.trans hl
    cases hs.symm.trans hr
    exact ⟨_, _, hleft hh, fun _ => rfl, fun _ => rfl⟩
  | right =>
    have heq := eq_right_of_half hh
    rw [heq, sibling_right] at hs
    rw [heq] at hb
    cases hs.symm.trans hl
    cases hb.symm.trans hr
    exact ⟨_, _, hright hh, fun _ => rfl, fun _ => rfl⟩

/-- A half that gets another accuracy than the key leaves the key fresh. -/
theorem FreshAt.put_half {old new : Node V} (h : FreshAt mul t below.parent node)
    (hold : t.find? below = some old) (hne : new.accuracy ≠ node.accuracy) :
    FreshAt mul (t.put below new) below.parent node := by
  refine ⟨?_⟩
  intro l r hl hr
  have hself := find?_put_self t below new
  rcases eq_left_or_eq_right below with heq | heq
  · rw [find?_put_of_ne _ _ (heq ▸ left_ne_right _ _)] at hr
    rw [← heq] at hl
    obtain ⟨a, b, hvalue, -, hb⟩ := h.product (heq ▸ hold) hr
    cases hself.symm.trans hl
    exact ⟨a, b, hvalue, fun hacc => absurd hacc hne, hb⟩
  · rw [find?_put_of_ne _ _ (heq ▸ (left_ne_right _ _).symm)] at hl
    rw [← heq] at hr
    obtain ⟨a, b, hvalue, ha, -⟩ := h.product hl (heq ▸ hold)
    cases hself.symm.trans hr
    exact ⟨a, b, hvalue, ha, fun hacc => absurd hacc hne⟩

/-! ### The edits -/

theorem fresh_plant (mul : V → V → V) (I : DyadicInterval) (node : Node V) :
    Fresh mul ((empty : Tree V).put I node) := by
  intro key node' hnode
  rw [find?_put, find?_empty] at hnode
  split at hnode
  · next heq =>
    subst heq
    exact freshAt_leaf mul node' (not_contains_left_plant I node)
  · cases hnode

theorem Fresh.grown {neighbourValue value : V} (hf : Fresh mul t) (h : t.FullUnder root)
    (hroot : t.find? root = some node)
    (hleft : root.half = .left → value = mul node.value neighbourValue)
    (hright : root.half = .right → value = mul neighbourValue node.value) :
    Fresh mul (t.grown root node neighbourValue value) := by
  intro key node' hnode
  rcases h.contains_grown.1 (contains_of_find? hnode) with rfl | rfl | hkey
  · exact freshAt_leaf mul node' (h.not_contains_left_grown_sibling node neighbourValue value)
  · rw [find?_grown_parent] at hnode
    cases hnode
    exact freshAt_parent find?_grown_root find?_grown_sibling hleft hright
  · obtain ⟨hl, hr⟩ := h.find?_grown_halves hkey node neighbourValue value
    by_cases heq : key = root
    · subst heq
      rw [find?_grown_root] at hnode
      cases hnode
      have hfr : FreshAt mul t key (node.linked key.parent key.sibling) :=
        ⟨(hf key node hroot).product⟩
      exact hfr.congr hl hr
    · rw [h.find?_grown hkey heq] at hnode
      exact (hf key node' hnode).congr hl hr

/-- A leaf that has been halved can be improved. -/
theorem Fresh.halved {leaf : DyadicInterval} (hf : Fresh mul t) (hm : t.Modest)
    (h : t.FullUnder root) (hleaf : t.contains leaf = true) (hl : t.contains leaf.left = false)
    (leftValue rightValue : V) :
    Refreshing mul (t.halved leaf leftValue rightValue) leaf.left := by
  refine ⟨?_, ?_⟩
  · intro key node hnode hne
    rw [parent_left] at hne
    rcases contains_halved.1 (contains_of_find? hnode) with rfl | rfl | hkey
    · exact freshAt_leaf mul node
        (h.not_contains_left_half hleaf hl (contains_left leaf) rfl leftValue rightValue)
    · exact freshAt_leaf mul node
        (h.not_contains_left_half hleaf hl (contains_right leaf) rfl leftValue rightValue)
    · rw [h.find?_halved hleaf hl hkey] at hnode
      obtain ⟨hL, hR⟩ := t.find?_halved_halves leftValue rightValue hne
      exact (hf key node hnode).congr hL hR
  · rintro b sib par ⟨hb, hs, hp⟩
    rw [find?_halved_left] at hb
    rw [sibling_left, find?_halved_right] at hs
    rw [parent_left, h.find?_halved hleaf hl hleaf] at hp
    cases hb
    cases hs
    have hacc := (hm leaf par hp).leaf hl
    left
    simp only
    omega

/-! ### One step of a propagation -/

/-- A key that is improved is fresh again, and its parent is as fresh as it was. -/
theorem Refreshing.put (hr : Refreshing mul t below) (hm : t.Modest) (hf : t.Family below b sib par)
    (hlt : par.accuracy < min b.accuracy sib.accuracy) {value : V}
    (hleft : below.half = .left → value = mul b.value sib.value)
    (hright : below.half = .right → value = mul sib.value b.value) :
    Refreshing mul (t.put below.parent (par.improved value (min b.accuracy sib.accuracy)))
      below.parent := by
  have hself := find?_put_self t below.parent
    (par.improved value (min b.accuracy sib.accuracy))
  have hold : ∀ {key}, key ≠ below.parent →
      (t.put below.parent (par.improved value (min b.accuracy sib.accuracy))).find? key =
        t.find? key :=
    fun hne => find?_put_of_ne _ _ hne.symm
  have hparent : FreshAt mul (t.put below.parent (par.improved value (min b.accuracy sib.accuracy)))
      below.parent (par.improved value (min b.accuracy sib.accuracy)) := by
    apply freshAt_parent ((hold (parent_ne below).symm).trans hf.self) _ hleft hright
    rw [hold _, hf.sibling]
    intro heq
    exact parent_ne below.sibling (by rw [parent_sibling, heq])
  refine ⟨?_, ?_⟩
  · intro key node hnode hne
    by_cases heq : key = below.parent
    · subst heq
      cases hself.symm.trans hnode
      exact hparent
    · rw [hold heq] at hnode
      apply (hr.freshAt hnode heq).congr
      · apply hold
        rintro hcon
        exact hne (by rw [← hcon, parent_left])
      · apply hold
        rintro hcon
        exact hne (by rw [← hcon, parent_right])
  · rintro p q g ⟨hp, hq, hg⟩
    right
    cases hself.symm.trans hp
    rw [hold (sibling_ne _)] at hq
    rw [hold (parent_ne _)] at hg
    have hle := (hm _ g hg).le_of_half hf.parent hq
    apply (hr.freshAt hg (parent_ne _)).put_half hf.parent
    change min b.accuracy sib.accuracy ≠ g.accuracy
    omega

/-! ### Where a propagation stops -/

theorem Refreshing.fresh_of_root (hr : Refreshing mul t root) (h : t.FullUnder root) :
    Fresh mul t := by
  intro key node hnode
  apply hr.freshAt hnode
  rintro rfl
  have := h.not_contains_parent_root
  rw [contains_of_find? hnode] at this
  cases this

theorem Refreshing.fresh_of_le (hr : Refreshing mul t below) (hf : t.Family below b sib par)
    (hle : min b.accuracy sib.accuracy ≤ par.accuracy) : Fresh mul t := by
  intro key node hnode
  by_cases heq : key = below.parent
  · subst heq
    cases hf.parent.symm.trans hnode
    exact (hr.pending hf).resolve_left (not_lt.2 hle)
  · exact hr.freshAt hnode heq

/-! ### Keys over leaves of one power -/

theorem EvenUnder.of_contains (he : t.EvenUnder key power value) (hc : key.contains J = true) :
    t.EvenUnder J power value :=
  fun K leaf hK hl hcK => he K leaf hK hl (contains_trans hc hcK)

theorem EvenUnder.accuracy_eq (he : t.EvenUnder key power value) (hx : t.Exact)
    (h : t.FullUnder root) (hnode : t.find? key = some node) : node.accuracy = power := by
  obtain ⟨-, J, hJ, hl, hc, hacc⟩ := hx.least h hnode
  obtain ⟨leaf, hleaf⟩ := exists_find?_of_contains hJ
  rw [hacc]
  exact (he J leaf hleaf hl hc).1

/-- The leaves under the key are all intervals of their power under it. -/
theorem EvenUnder.leaf_of_power_eq (he : t.EvenUnder key power value) (hx : t.Exact)
    (h : t.FullUnder root) (hnode : t.find? key = some node) (hc : key.contains J = true)
    (hp : J.power = power) : t.contains J = true ∧ t.contains J.left = false := by
  have hacc := he.accuracy_eq hx h hnode
  refine ⟨hx.modest.contains_of_le h hnode hacc.ge hc hp.le, ?_⟩
  rw [Bool.eq_false_iff]
  intro hl
  obtain ⟨left, hleft⟩ := exists_find?_of_contains hl
  have hle := hx.power_le h hleft
  rw [(he.of_contains (contains_trans hc (contains_left J))).accuracy_eq hx h hleft, left_power,
    hp] at hle
  omega

/-- Over leaves of one power the value of a fresh key is the balanced product of theirs. -/
theorem Fresh.value_eq (hf : Fresh mul t) (hx : t.Exact) (h : t.FullUnder root)
    (hnode : t.find? key = some node) (he : t.EvenUnder key power value) :
    node.value = balancedProduct mul value (power - key.power).toNat key := by
  have hkey := contains_of_find? hnode
  revert node
  refine h.induction (P := fun key => t.EvenUnder key power value →
    ∀ {node}, t.find? key = some node →
      node.value = balancedProduct mul value (power - key.power).toNat key) ?_ ?_ hkey he
  · intro key hkey hl he node hnode
    obtain ⟨rfl, hvalue⟩ := he key node hnode hl (contains_self key)
    rw [sub_self]
    exact hvalue
  · intro key hkey hl hr ihl ihr he node hnode
    obtain ⟨l, hfl⟩ := exists_find?_of_contains hl
    obtain ⟨r, hfr⟩ := exists_find?_of_contains hr
    have hel := he.of_contains (contains_left key)
    have her := he.of_contains (contains_right key)
    have hacc := he.accuracy_eq hx h hnode
    have haccl := hel.accuracy_eq hx h hfl
    have haccr := her.accuracy_eq hx h hfr
    have hlevels : (power - key.power).toNat = (power - (key.power + 1)).toNat + 1 := by
      have hp := hx.power_le h hfl
      rw [haccl, left_power] at hp
      omega
    obtain ⟨a, b, hvalue, ha, hb⟩ := (hf key node hnode).product hfl hfr
    rw [hvalue, ha (haccl.trans hacc.symm), hb (haccr.trans hacc.symm), hlevels, balancedProduct]
    congr 1
    · exact ihl hel hfl
    · exact ihr her hfr

end Tree

end SignatureCache
