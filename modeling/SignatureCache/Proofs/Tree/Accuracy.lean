import SignatureCache.Proofs.Tree.Edits

/-!
# Exact accuracies

Accuracies are exact if a leaf is as accurate as its own power and every other key as accurate as
the worse of its halves. The accuracy of a key is then the least power among the leaves below it.
Between adding two halves and the end of the propagation one key lags behind: it still has the
accuracy that was exact before its half gained one. `Rising` describes this, and each step of the
propagation either finds that nothing is missing any more or raises the key and passes the lag on to
its parent.
-/

namespace SignatureCache

namespace Tree

open DyadicInterval

variable {V : Type}

/-- The accuracy of one key is exact. -/
structure ExactAt (t : Tree V) (key : DyadicInterval) (node : Node V) : Prop where
  leaf : t.contains key.left = false → node.accuracy = key.power
  inner : ∀ {l r}, t.find? key.left = some l → t.find? key.right = some r →
    node.accuracy = min l.accuracy r.accuracy

/-- The accuracy of every key is exact. -/
def Exact (t : Tree V) : Prop :=
  ∀ key node, t.find? key = some node → t.ExactAt key node

/-- The accuracy of every key but the parent of `below` is exact, and that of the parent would be
if `below` were less accurate by one. -/
structure Rising (t : Tree V) (below : DyadicInterval) : Prop where
  exactAt : ∀ {key node}, t.find? key = some node → key ≠ below.parent → t.ExactAt key node
  lag : ∀ {node siblingNode parentNode}, t.find? below = some node →
    t.find? below.sibling = some siblingNode → t.find? below.parent = some parentNode →
      parentNode.accuracy = min (node.accuracy - 1) siblingNode.accuracy

/-- The least power of a leaf nested in `key` is `power`. -/
structure LeastPower (t : Tree V) (key : DyadicInterval) (power : Int) : Prop where
  le : ∀ {J}, t.contains J = true → t.contains J.left = false → key.contains J = true →
    power ≤ J.power
  attained : ∃ J, t.contains J = true ∧ t.contains J.left = false ∧ key.contains J = true ∧
    power = J.power

variable {t : Tree V} {root key J : DyadicInterval} {node : Node V}

/-! ### Least powers -/

theorem Exact.least (hx : t.Exact) (h : t.FullUnder root) (hnode : t.find? key = some node) :
    t.LeastPower key node.accuracy := by
  have hkey := contains_of_find? hnode
  revert node
  refine h.induction (P := fun key => ∀ {node}, t.find? key = some node →
    t.LeastPower key node.accuracy) ?_ ?_ hkey
  · intro key hkey hl node hnode
    have hacc := (hx key node hnode).leaf hl
    refine ⟨?_, key, hkey, hl, contains_self key, hacc⟩
    intro J hJ _ hc
    rw [h.eq_of_not_contains_left hkey hl hJ hc, hacc]
  · intro key hkey hl hr ihl ihr node hnode
    obtain ⟨l, hfl⟩ := exists_find?_of_contains hl
    obtain ⟨r, hfr⟩ := exists_find?_of_contains hr
    have hacc := (hx key node hnode).inner hfl hfr
    obtain ⟨hlb, A, hA, hAl, hAc, hAp⟩ := ihl hfl
    obtain ⟨hrb, B, hB, hBl, hBc, hBp⟩ := ihr hfr
    refine ⟨?_, ?_⟩
    · intro J hJ hJl hc
      have hne : J ≠ key := by
        rintro rfl
        simp [hl] at hJl
      rcases left_contains_or_right_contains hc hne with hcl | hcr
      · exact (hacc.trans_le (min_le_left _ _)).trans (hlb hJ hJl hcl)
      · exact (hacc.trans_le (min_le_right _ _)).trans (hrb hJ hJl hcr)
    · rcases le_total l.accuracy r.accuracy with hle | hle
      · exact ⟨A, hA, hAl, contains_trans (contains_left key) hAc, by omega⟩
      · exact ⟨B, hB, hBl, contains_trans (contains_right key) hBc, by omega⟩

theorem Exact.power_le (hx : t.Exact) (h : t.FullUnder root) (hnode : t.find? key = some node) :
    key.power ≤ node.accuracy := by
  obtain ⟨-, J, -, -, hc, hacc⟩ := hx.least h hnode
  rw [hacc]
  exact power_le_of_contains hc

/-- What is nested in a key is no less accurate. -/
theorem Exact.accuracy_le (hx : t.Exact) (h : t.FullUnder root) {node' : Node V}
    (hnode : t.find? key = some node) (hJ : t.find? J = some node') (hc : key.contains J = true) :
    node.accuracy ≤ node'.accuracy := by
  obtain ⟨-, K, hK, hKl, hKc, hacc⟩ := hx.least h hJ
  rw [hacc]
  exact (hx.least h hnode).le hK hKl (contains_trans hc hKc)

/-! ### Two halves in either order -/

theorem ExactAt.of_half {below : DyadicInterval} {b sib : Node V}
    (hx : t.ExactAt below.parent node) (hb : t.find? below = some b)
    (hs : t.find? below.sibling = some sib) : node.accuracy = min b.accuracy sib.accuracy := by
  rcases eq_left_or_eq_right below with h | h
  · rw [h, sibling_left] at hs
    rw [h] at hb
    exact hx.inner hb hs
  · rw [h, sibling_right] at hs
    rw [h] at hb
    rw [hx.inner hs hb, min_comm]

theorem exactAt_parent {below : DyadicInterval} {b sib : Node V} (hb : t.find? below = some b)
    (hs : t.find? below.sibling = some sib)
    (hacc : node.accuracy = min b.accuracy sib.accuracy) : t.ExactAt below.parent node := by
  rcases eq_left_or_eq_right below with h | h
  · rw [h, sibling_left] at hs
    rw [h] at hb
    refine ⟨?_, ?_⟩
    · intro hl
      rw [contains_of_find? hb] at hl
      cases hl
    · intro l r hl hr
      cases hb.symm.trans hl
      cases hs.symm.trans hr
      exact hacc
  · rw [h, sibling_right] at hs
    rw [h] at hb
    refine ⟨?_, ?_⟩
    · intro hl
      rw [contains_of_find? hs] at hl
      cases hl
    · intro l r hl hr
      cases hs.symm.trans hl
      cases hb.symm.trans hr
      rw [hacc, min_comm]

/-- Exactness at a key only depends on its halves. -/
theorem ExactAt.congr {t' : Tree V} (hx : t.ExactAt key node)
    (hl : t'.find? key.left = t.find? key.left) (hr : t'.find? key.right = t.find? key.right) :
    t'.ExactAt key node := by
  refine ⟨?_, ?_⟩
  · intro hno
    apply hx.leaf
    rwa [contains_eq_isSome, ← hl, ← contains_eq_isSome]
  · intro l r hfl hfr
    exact hx.inner (hl ▸ hfl) (hr ▸ hfr)

/-! ### The edits -/

theorem exactAt_new_leaf (hno : t.contains key.left = false) (hacc : node.accuracy = key.power) :
    t.ExactAt key node := by
  refine ⟨fun _ => hacc, ?_⟩
  intro l r hl _
  rw [contains_of_find? hl] at hno
  cases hno

theorem not_contains_left_plant (I : DyadicInterval) (node : Node V) :
    ((empty : Tree V).put I node).contains I.left = false := by
  have hne : I ≠ I.left := ne_of_power_ne (by rw [left_power]; omega)
  simp [contains_put, hne]

theorem exact_plant (I : DyadicInterval) (value : V) :
    ((empty : Tree V).put I ⟨value, I.power, none, none⟩).Exact := by
  intro key node hnode
  rw [find?_put, find?_empty] at hnode
  split at hnode
  · next heq =>
    subst heq
    cases hnode
    exact exactAt_new_leaf (not_contains_left_plant I _) rfl
  · cases hnode

/-- No key lies below either of the halves that a leaf is given. -/
theorem FullUnder.not_contains_left_half {leaf half : DyadicInterval} (h : t.FullUnder root)
    (hleaf : t.contains leaf = true) (hl : t.contains leaf.left = false)
    (hc : leaf.contains half = true) (hp : half.power = leaf.power + 1) (leftValue rightValue : V) :
    (t.halved leaf leftValue rightValue).contains half.left = false := by
  have hleft : half.left ≠ leaf.left := by
    apply ne_of_power_ne
    rw [left_power, left_power]
    omega
  have hright : half.left ≠ leaf.right := by
    apply ne_of_power_ne
    rw [left_power, right_power]
    omega
  rw [Bool.eq_false_iff]
  intro hcon
  have hold := ((contains_halved.1 hcon).resolve_left hleft).resolve_left hright
  have heq := h.eq_of_not_contains_left hleaf hl hold (contains_trans hc (contains_left half))
  exact ne_of_power_ne (by rw [left_power]; omega) heq

/-- The halves of a key are new only if the key is the leaf. -/
theorem find?_halved_halves {leaf : DyadicInterval} (t : Tree V) (leftValue rightValue : V)
    (hne : key ≠ leaf) :
    (t.halved leaf leftValue rightValue).find? key.left = t.find? key.left ∧
      (t.halved leaf leftValue rightValue).find? key.right = t.find? key.right := by
  have hold : ∀ I : DyadicInterval, I.parent = key →
      (t.halved leaf leftValue rightValue).find? I = t.find? I := by
    intro I hI
    apply find?_halved_of_ne
    · rintro rfl
      exact hne (by rw [← hI, parent_left])
    · rintro rfl
      exact hne (by rw [← hI, parent_right])
  exact ⟨hold key.left (parent_left key), hold key.right (parent_right key)⟩

theorem Exact.rising_halved {leaf : DyadicInterval} {leftValue rightValue : V} (hx : t.Exact)
    (h : t.FullUnder root) (hleaf : t.contains leaf = true) (hl : t.contains leaf.left = false) :
    (t.halved leaf leftValue rightValue).Rising leaf.left := by
  have hnone : ∀ {half : DyadicInterval}, leaf.contains half = true →
      half.power = leaf.power + 1 →
      (t.halved leaf leftValue rightValue).contains half.left = false :=
    fun hc hp => h.not_contains_left_half hleaf hl hc hp leftValue rightValue
  refine ⟨?_, ?_⟩
  · intro key node hnode hne
    rw [parent_left] at hne
    rcases contains_halved.1 (contains_of_find? hnode) with rfl | rfl | hkey
    · rw [find?_halved_left] at hnode
      cases hnode
      exact exactAt_new_leaf (hnone (contains_left leaf) rfl) rfl
    · rw [find?_halved_right] at hnode
      cases hnode
      exact exactAt_new_leaf (hnone (contains_right leaf) rfl) rfl
    · rw [h.find?_halved hleaf hl hkey] at hnode
      obtain ⟨hL, hR⟩ := t.find?_halved_halves leftValue rightValue hne
      exact (hx key node hnode).congr hL hR
  · intro l r p hfl hfr hfp
    rw [find?_halved_left] at hfl
    rw [sibling_left, find?_halved_right] at hfr
    rw [parent_left, h.find?_halved hleaf hl hleaf] at hfp
    cases hfl
    cases hfr
    have hacc := (hx leaf p hfp).leaf hl
    simp only
    omega

/-- A leaf lags behind as soon as it has halves. -/
theorem FullUnder.not_exact_halved (h : t.FullUnder root)
    (hleaf : t.contains leaf = true) (hl : t.contains leaf.left = false) (hx : t.Exact)
    (leftValue rightValue : V) : ¬ (t.halved leaf leftValue rightValue).Exact := by
  intro hx'
  obtain ⟨node, hnode⟩ := exists_find?_of_contains hleaf
  have hacc := (hx leaf node hnode).leaf hl
  have hnew : (t.halved leaf leftValue rightValue).find? leaf = some node :=
    (h.find?_halved hleaf hl hleaf).trans hnode
  have hacc' := (hx' leaf node hnew).inner find?_halved_left find?_halved_right
  simp only [min_self] at hacc'
  omega

/-- The halves of an old key are not new. -/
theorem FullUnder.find?_grown_halves (h : t.FullUnder root) (hkey : t.contains key = true)
    (node : Node V) (neighbourValue value : V) :
    (t.grown root node neighbourValue value).find? key.left = t.find? key.left ∧
      (t.grown root node neighbourValue value).find? key.right = t.find? key.right := by
  have hp := power_le_of_contains (h.root_contains hkey)
  have hold : ∀ {I : DyadicInterval}, I.parent = key → I.power = key.power + 1 →
      (t.grown root node neighbourValue value).find? I = t.find? I := by
    intro I hI hpI
    have hne : root.parent ≠ key := by
      apply ne_of_power_ne
      rw [parent_power]
      omega
    apply find?_grown_of_ne
    · rintro rfl
      exact hne (by rw [← hI, parent_sibling])
    · apply ne_of_power_ne
      rw [parent_power]
      omega
    · rintro rfl
      exact hne hI
  exact ⟨hold (parent_left key) (left_power key), hold (parent_right key) (right_power key)⟩

/-- The sibling that a root is given is a leaf. -/
theorem FullUnder.not_contains_left_grown_sibling (h : t.FullUnder root) (node : Node V)
    (neighbourValue value : V) :
    (t.grown root node neighbourValue value).contains root.sibling.left = false := by
  rw [Bool.eq_false_iff]
  intro hcon
  have hp := sibling_power root
  rcases h.contains_grown.1 hcon with heq | heq | hold
  · exact ne_of_power_ne (by rw [left_power]; omega) heq
  · exact ne_of_power_ne (by rw [left_power, parent_power]; omega) heq
  · have hno := not_sibling_contains (h.root_contains hold)
    rw [contains_left] at hno
    cases hno

theorem FullUnder.exactAt_grown_sibling (h : t.FullUnder root) (node : Node V)
    (neighbourValue value : V) :
    (t.grown root node neighbourValue value).ExactAt root.sibling
      ⟨neighbourValue, root.power, some root.parent, some root⟩ :=
  exactAt_new_leaf (h.not_contains_left_grown_sibling node neighbourValue value)
    (sibling_power root).symm

theorem Exact.grown {neighbourValue value : V} (hx : t.Exact) (h : t.FullUnder root)
    (hroot : t.find? root = some node) : (t.grown root node neighbourValue value).Exact := by
  intro key node' hnode
  rcases h.contains_grown.1 (contains_of_find? hnode) with rfl | rfl | hkey
  · rw [find?_grown_sibling] at hnode
    cases hnode
    exact h.exactAt_grown_sibling node neighbourValue value
  · rw [find?_grown_parent] at hnode
    cases hnode
    exact exactAt_parent find?_grown_root find?_grown_sibling rfl
  · obtain ⟨hleft, hright⟩ := h.find?_grown_halves hkey node neighbourValue value
    by_cases heq : key = root
    · subst heq
      rw [find?_grown_root] at hnode
      cases hnode
      have hxr := hx key node hroot
      exact ExactAt.congr ⟨hxr.leaf, hxr.inner⟩ hleft hright
    · rw [h.find?_grown hkey heq] at hnode
      exact (hx key node' hnode).congr hleft hright

/-! ### One step of a propagation -/

section Step

variable {below : DyadicInterval} {b sib par : Node V}

theorem Rising.exact_of_root (hx : t.Rising root) (h : t.FullUnder root) : t.Exact := by
  intro key node hnode
  apply hx.exactAt hnode
  rintro rfl
  have := h.not_contains_parent_root
  rw [contains_of_find? hnode] at this
  cases this

theorem Rising.exact_of_le (hx : t.Rising below) (hf : t.Family below b sib par)
    (hle : min b.accuracy sib.accuracy ≤ par.accuracy) : t.Exact := by
  have hlag := hx.lag hf.self hf.sibling hf.parent
  intro key node hnode
  by_cases heq : key = below.parent
  · subst heq
    cases hf.parent.symm.trans hnode
    exact exactAt_parent hf.self hf.sibling (by omega)
  · exact hx.exactAt hnode heq

/-- A key that can be improved gains exactly one. -/
theorem Rising.gain (hx : t.Rising below) (hf : t.Family below b sib par)
    (hlt : par.accuracy < min b.accuracy sib.accuracy) :
    min b.accuracy sib.accuracy = par.accuracy + 1 := by
  have hlag := hx.lag hf.self hf.sibling hf.parent
  omega

theorem Rising.put (hx : t.Rising below) (hf : t.Family below b sib par)
    (hlt : par.accuracy < min b.accuracy sib.accuracy) (value : V) :
    (t.put below.parent (par.improved value (min b.accuracy sib.accuracy))).Rising
      below.parent := by
  have hgain := hx.gain hf hlt
  have hself := find?_put_self t below.parent
    (par.improved value (min b.accuracy sib.accuracy))
  have hold : ∀ {key}, key ≠ below.parent →
      (t.put below.parent (par.improved value (min b.accuracy sib.accuracy))).find? key =
        t.find? key :=
    fun hne => find?_put_of_ne _ _ hne.symm
  refine ⟨?_, ?_⟩
  · intro key node hnode hne
    by_cases heq : key = below.parent
    · subst heq
      cases hself.symm.trans hnode
      apply exactAt_parent ((hold (parent_ne below).symm).trans hf.self)
      · rw [hold _, hf.sibling]
        intro heq
        exact parent_ne below.sibling (by rw [parent_sibling, heq])
      · rfl
    · rw [hold heq] at hnode
      apply (hx.exactAt hnode heq).congr
      · apply hold
        rintro hcon
        exact hne (by rw [← hcon, parent_left])
      · apply hold
        rintro hcon
        exact hne (by rw [← hcon, parent_right])
  · intro p q g hfp hfq hfg
    cases hself.symm.trans hfp
    rw [hold (sibling_ne _)] at hfq
    rw [hold (parent_ne _)] at hfg
    have hx' := (hx.exactAt hfg (parent_ne _)).of_half hf.parent hfq
    change g.accuracy = min (min b.accuracy sib.accuracy - 1) q.accuracy
    omega

end Step

end Tree

end SignatureCache
