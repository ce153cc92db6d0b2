import SignatureCache.Proofs.Tree.Full
import SignatureCache.Tree.Shelf

/-!
# What the edits do

Three edits make every tree: giving a leaf two halves, putting a parent and a sibling around the
root, and setting value and accuracy of a node. Each is described by what it does to `find?`, and
keeps a full tree full. The programs that carry out the first two run without a fault on such trees.
-/

namespace SignatureCache

/-! ### One step after another -/

section

variable {ε σ α β : Type} {x : EStateM ε σ α} {f : α → EStateM ε σ β} {s s' : σ}

theorem bind_of_ok {a : α} (h : x s = .ok a s') : (x >>= f) s = f a s' := by
  simp only [bind, EStateM.bind, h]

theorem bind_of_error {error : ε} (h : x s = .error error s') : (x >>= f) s = .error error s' := by
  simp only [bind, EStateM.bind, h]

end

/-! ### The edits -/

/-- The node with another value and accuracy. -/
def Node.improved {V : Type} (node : Node V) (value : V) (accuracy : Int) : Node V :=
  { node with value := value, accuracy := accuracy }

namespace Tree

open DyadicInterval

variable {V : Type}

/-- The tree with two halves added under a leaf. -/
def halved (t : Tree V) (leaf : DyadicInterval) (leftValue rightValue : V) : Tree V :=
  (t.put leaf.left ⟨leftValue, leaf.power + 1, some leaf, some leaf.right⟩).put
    leaf.right ⟨rightValue, leaf.power + 1, some leaf, some leaf.left⟩

/-- The tree with a sibling and a parent added to the root, whose node is `node`. -/
def grown (t : Tree V) (root : DyadicInterval) (node : Node V) (neighbourValue value : V) :
    Tree V :=
  ((t.put root.sibling ⟨neighbourValue, root.power, some root.parent, some root⟩).put
    root.parent ⟨value, min node.accuracy root.power, none, none⟩).put
      root (node.linked root.parent root.sibling)

theorem parent?_put (t : Tree V) (key other : DyadicInterval) (node : Node V) :
    (t.put key node).parent? other = if key = other then node.parent? else t.parent? other := by
  rw [parent?, parent?, find?_put]
  split <;> rfl

theorem sibling?_put (t : Tree V) (key other : DyadicInterval) (node : Node V) :
    (t.put key node).sibling? other = if key = other then node.sibling? else t.sibling? other := by
  rw [sibling?, sibling?, find?_put]
  split <;> rfl

/-! ### Two halves under a leaf -/

section Halved

variable {t : Tree V} {root leaf key : DyadicInterval} {leftValue rightValue : V}

theorem contains_halved : (t.halved leaf leftValue rightValue).contains key = true ↔
    key = leaf.left ∨ key = leaf.right ∨ t.contains key = true := by
  simp only [halved, contains_put, Bool.or_eq_true, decide_eq_true_eq]
  constructor
  · rintro (rfl | rfl | h)
    · exact .inr (.inl rfl)
    · exact .inl rfl
    · exact .inr (.inr h)
  · rintro (rfl | rfl | h)
    · exact .inr (.inl rfl)
    · exact .inl rfl
    · exact .inr (.inr h)

theorem find?_halved_left : (t.halved leaf leftValue rightValue).find? leaf.left =
    some ⟨leftValue, leaf.power + 1, some leaf, some leaf.right⟩ := by
  rw [halved, find?_put_of_ne _ _ (left_ne_right leaf leaf).symm, find?_put_self]

theorem find?_halved_right : (t.halved leaf leftValue rightValue).find? leaf.right =
    some ⟨rightValue, leaf.power + 1, some leaf, some leaf.left⟩ := by
  rw [halved, find?_put_self]

theorem find?_halved_of_ne (hl : key ≠ leaf.left) (hr : key ≠ leaf.right) :
    (t.halved leaf leftValue rightValue).find? key = t.find? key := by
  rw [halved, find?_put_of_ne _ _ hr.symm, find?_put_of_ne _ _ hl.symm]

/-- Keys that were there before keep their nodes. -/
theorem FullUnder.find?_halved (h : t.FullUnder root) (hleaf : t.contains leaf = true)
    (hl : t.contains leaf.left = false) (hkey : t.contains key = true) :
    (t.halved leaf leftValue rightValue).find? key = t.find? key := by
  have hr := h.not_contains_right hleaf hl
  apply find?_halved_of_ne
  · rintro rfl
    simp [hkey] at hl
  · rintro rfl
    simp [hkey] at hr

theorem FullUnder.halved (h : t.FullUnder root) (hleaf : t.contains leaf = true)
    (hl : t.contains leaf.left = false) (leftValue rightValue : V) :
    (t.halved leaf leftValue rightValue).FullUnder root := by
  have hold : ∀ {key}, t.contains key = true →
      (t.halved leaf leftValue rightValue).contains key = true :=
    fun hkey => contains_halved.2 (.inr (.inr hkey))
  have hparent : ∀ {key}, t.contains key = true →
      (t.halved leaf leftValue rightValue).parent? key = t.parent? key := by
    intro key hkey
    rw [parent?, parent?, h.find?_halved hleaf hl hkey]
  have hsibling : ∀ {key}, t.contains key = true →
      (t.halved leaf leftValue rightValue).sibling? key = t.sibling? key := by
    intro key hkey
    rw [sibling?, sibling?, h.find?_halved hleaf hl hkey]
  constructor
  case contains_root => exact hold h.contains_root
  case root_contains =>
    intro key hkey
    rcases contains_halved.1 hkey with rfl | rfl | hkey
    · exact contains_trans (h.root_contains hleaf) (contains_left leaf)
    · exact contains_trans (h.root_contains hleaf) (contains_right leaf)
    · exact h.root_contains hkey
  case unlinked =>
    rw [hparent h.contains_root, hsibling h.contains_root]
    exact h.unlinked
  case contains_parent =>
    intro key hkey hne
    rcases contains_halved.1 hkey with rfl | rfl | hkey
    · rw [parent_left]
      exact hold hleaf
    · rw [parent_right]
      exact hold hleaf
    · exact hold (h.contains_parent hkey hne)
  case contains_sibling =>
    intro key hkey hne
    rcases contains_halved.1 hkey with rfl | rfl | hkey
    · rw [sibling_left, contains_halved]
      exact .inr (.inl rfl)
    · rw [sibling_right, contains_halved]
      exact .inl rfl
    · exact hold (h.contains_sibling hkey hne)
  case parent?_eq =>
    intro key hkey hne
    rcases contains_halved.1 hkey with rfl | rfl | hkey
    · rw [parent?_of_find? find?_halved_left, parent_left]
    · rw [parent?_of_find? find?_halved_right, parent_right]
    · rw [hparent hkey]
      exact h.parent?_eq hkey hne
  case sibling?_eq =>
    intro key hkey hne
    rcases contains_halved.1 hkey with rfl | rfl | hkey
    · rw [sibling?_of_find? find?_halved_left, sibling_left]
    · rw [sibling?_of_find? find?_halved_right, sibling_right]
    · rw [hsibling hkey]
      exact h.sibling?_eq hkey hne

end Halved

/-! ### A sibling and a parent for the root -/

section Grown

variable {t : Tree V} {root key : DyadicInterval} {node : Node V} {neighbourValue value : V}

theorem FullUnder.not_contains_sibling_root (h : t.FullUnder root) :
    t.contains root.sibling = false := by
  rw [Bool.eq_false_iff]
  intro hs
  exact sibling_ne root (eq_of_contains_of_power_le (h.root_contains hs) (by simp))

theorem FullUnder.not_contains_parent_root (h : t.FullUnder root) :
    t.contains root.parent = false := by
  rw [Bool.eq_false_iff]
  intro hp
  have hc := h.root_contains hp
  rw [not_contains_parent] at hc
  cases hc

theorem find?_grown_root : (t.grown root node neighbourValue value).find? root =
    some (node.linked root.parent root.sibling) := by
  rw [grown, find?_put_self]

theorem find?_grown_sibling : (t.grown root node neighbourValue value).find? root.sibling =
    some ⟨neighbourValue, root.power, some root.parent, some root⟩ := by
  rw [grown, find?_put_of_ne _ _ (sibling_ne root).symm,
    find?_put_of_ne _ _ (parent_ne_sibling root), find?_put_self]

theorem find?_grown_parent : (t.grown root node neighbourValue value).find? root.parent =
    some ⟨value, min node.accuracy root.power, none, none⟩ := by
  rw [grown, find?_put_of_ne _ _ (parent_ne root).symm, find?_put_self]

theorem find?_grown_of_ne (hs : key ≠ root.sibling) (hp : key ≠ root.parent) (hr : key ≠ root) :
    (t.grown root node neighbourValue value).find? key = t.find? key := by
  rw [grown, find?_put_of_ne _ _ hr.symm, find?_put_of_ne _ _ hp.symm, find?_put_of_ne _ _ hs.symm]

theorem FullUnder.find?_grown (h : t.FullUnder root) (hkey : t.contains key = true)
    (hne : key ≠ root) : (t.grown root node neighbourValue value).find? key = t.find? key := by
  apply find?_grown_of_ne _ _ hne
  · rintro rfl
    simp [h.not_contains_sibling_root] at hkey
  · rintro rfl
    simp [h.not_contains_parent_root] at hkey

theorem FullUnder.contains_grown (h : t.FullUnder root) :
    (t.grown root node neighbourValue value).contains key = true ↔
      key = root.sibling ∨ key = root.parent ∨ t.contains key = true := by
  simp only [grown, contains_put, Bool.or_eq_true, decide_eq_true_eq]
  constructor
  · rintro (rfl | rfl | rfl | hkey)
    · exact .inr (.inr h.contains_root)
    · exact .inr (.inl rfl)
    · exact .inl rfl
    · exact .inr (.inr hkey)
  · rintro (rfl | rfl | hkey)
    · exact .inr (.inr (.inl rfl))
    · exact .inr (.inl rfl)
    · exact .inr (.inr (.inr hkey))

theorem FullUnder.grown (h : t.FullUnder root) :
    (t.grown root node neighbourValue value).FullUnder root.parent := by
  have hroot : (t.grown root node neighbourValue value).contains root = true :=
    h.contains_grown.2 (.inr (.inr h.contains_root))
  have hsib : (t.grown root node neighbourValue value).contains root.sibling = true :=
    h.contains_grown.2 (.inl rfl)
  have hpar : (t.grown root node neighbourValue value).contains root.parent = true :=
    h.contains_grown.2 (.inr (.inl rfl))
  -- The old root and its sibling are told apart from the keys that keep their nodes.
  have hcases : ∀ {P : DyadicInterval → Prop}, P root → P root.sibling →
      (∀ key, t.contains key = true → key ≠ root → P key) →
      ∀ {key}, (t.grown root node neighbourValue value).contains key = true →
        key ≠ root.parent → P key := by
    intro P hr hs hold key hkey hne
    rcases h.contains_grown.1 hkey with rfl | rfl | hkey
    · exact hs
    · exact absurd rfl hne
    · by_cases heq : key = root
      · rw [heq]
        exact hr
      · exact hold key hkey heq
  constructor
  case contains_root => exact hpar
  case root_contains =>
    intro key hkey
    rcases h.contains_grown.1 hkey with rfl | rfl | hkey
    · exact parent_contains_sibling root
    · exact contains_self _
    · exact contains_trans (parent_contains root) (h.root_contains hkey)
  case unlinked =>
    rw [parent?_of_find? find?_grown_parent, sibling?_of_find? find?_grown_parent]
    exact ⟨rfl, rfl⟩
  case contains_parent =>
    apply hcases
    · exact hpar
    · rwa [parent_sibling]
    · intro key hkey hne
      exact h.contains_grown.2 (.inr (.inr (h.contains_parent hkey hne)))
  case contains_sibling =>
    apply hcases
    · exact hsib
    · rwa [sibling_sibling]
    · intro key hkey hne
      exact h.contains_grown.2 (.inr (.inr (h.contains_sibling hkey hne)))
  case parent?_eq =>
    apply hcases
    · rw [parent?_of_find? find?_grown_root]
      rfl
    · rw [parent?_of_find? find?_grown_sibling, parent_sibling]
    · intro key hkey hne
      rw [parent?, h.find?_grown hkey hne]
      exact h.parent?_eq hkey hne
  case sibling?_eq =>
    apply hcases
    · rw [sibling?_of_find? find?_grown_root]
      rfl
    · rw [sibling?_of_find? find?_grown_sibling, sibling_sibling]
    · intro key hkey hne
      rw [sibling?, h.find?_grown hkey hne]
      exact h.sibling?_eq hkey hne

end Grown

/-! ### A node with another value and accuracy -/

theorem contains_put_of_contains {t : Tree V} {key : DyadicInterval} (hkey : t.contains key = true)
    (node : Node V) (other : DyadicInterval) :
    (t.put key node).contains other = t.contains other := by
  rw [contains_put]
  by_cases h : key = other
  · rw [← h, hkey, Bool.or_true]
  · simp [h]

theorem FullUnder.put {t : Tree V} {root key : DyadicInterval} {node : Node V}
    (h : t.FullUnder root) (hkey : t.find? key = some node) (value : V) (accuracy : Int) :
    (t.put key (node.improved value accuracy)).FullUnder root := by
  have hc := contains_put_of_contains (contains_of_find? hkey)
    (node.improved value accuracy)
  have hp : ∀ other, (t.put key (node.improved value accuracy)).parent? other =
      t.parent? other := by
    intro other
    rw [parent?_put]
    split
    · next heq =>
      rw [← heq, parent?_of_find? hkey]
      rfl
    · rfl
  have hs : ∀ other, (t.put key (node.improved value accuracy)).sibling? other =
      t.sibling? other := by
    intro other
    rw [sibling?_put]
    split
    · next heq =>
      rw [← heq, sibling?_of_find? hkey]
      rfl
    · rfl
  constructor
  case contains_root =>
    rw [hc]
    exact h.contains_root
  case root_contains =>
    intro other hother
    rw [hc] at hother
    exact h.root_contains hother
  case unlinked =>
    rw [hp, hs]
    exact h.unlinked
  case contains_parent =>
    intro other hother hne
    rw [hc] at hother ⊢
    exact h.contains_parent hother hne
  case contains_sibling =>
    intro other hother hne
    rw [hc] at hother ⊢
    exact h.contains_sibling hother hne
  case parent?_eq =>
    intro other hother hne
    rw [hc] at hother
    rw [hp]
    exact h.parent?_eq hother hne
  case sibling?_eq =>
    intro other hother hne
    rw [hc] at hother
    rw [hs]
    exact h.sibling?_eq hother hne

/-! ### The programs -/

@[simp] theorem searched_run (t : Tree V) (key : DyadicInterval) :
    (searched key : Edit V (Tree V)) t = .ok t t := rfl

@[simp] theorem covers_run (t : Tree V) (I J : DyadicInterval) :
    (covers I J : Edit V Bool) t = .ok (I.contains J) t := rfl

theorem canLink_run (t : Tree V) (parent left right : DyadicInterval) :
    canLink parent left right t =
      .ok (t.contains parent && (parent.contains left && parent.contains right)) t := by
  rw [canLink, bind_of_ok (searched_run t parent)]
  cases t.contains parent with
  | false => rfl
  | true =>
    simp only [Bool.not_true, Bool.false_eq_true, if_false, Bool.true_and]
    rw [bind_of_ok (covers_run t parent left)]
    cases parent.contains left with
    | false => rfl
    | true => rfl

@[simp] theorem putNode_run (t : Tree V) (key : DyadicInterval) (node : Node V) :
    (putNode key node : Edit V Unit) t = .ok () (t.put key node) := rfl

theorem insert_run {t : Tree V} {key : DyadicInterval} (h : t.contains key = false)
    (node : Node V) : insert key node t = .ok () (t.put key node) := by
  rw [insert, bind_of_ok (searched_run t key), bind_of_ok (putNode_run t key node), h]
  rfl

theorem linkNode_run {t : Tree V} {key : DyadicInterval} {node : Node V}
    (h : t.find? key = some node) (parent sibling : DyadicInterval) :
    linkNode key parent sibling t = .ok () (t.put key (node.linked parent sibling)) := by
  rw [linkNode, bind_of_ok (searched_run t key), h]
  rfl

theorem linkHalves_run {t : Tree V} {parent left right : DyadicInterval} {l r : Node V}
    (hparent : t.contains parent = true) (hcl : parent.contains left = true)
    (hcr : parent.contains right = true) (hne : left ≠ right) (hl : t.find? left = some l)
    (hr : t.find? right = some r) :
    linkHalves parent left right t =
      .ok () ((t.put left (l.linked parent right)).put right (r.linked parent left)) := by
  have hr' : (t.put left (l.linked parent right)).find? right = some r := by
    rw [find?_put_of_ne _ _ hne, hr]
  have h₁ := linkNode_run hl parent right
  have h₂ := linkNode_run hr' parent left
  have hcan : canLink parent left right t = .ok true t := by
    rw [canLink_run, hparent, hcl, hcr]
    rfl
  rw [linkHalves, bind_of_ok hcan]
  exact (bind_of_ok h₁).trans h₂

/-- Adding two halves under a leaf runs without a fault. -/
theorem insertHalves_run {t : Tree V} {leaf : DyadicInterval} (hleaf : t.contains leaf = true)
    (hl : t.contains leaf.left = false) (hr : t.contains leaf.right = false)
    (leftValue rightValue : V) :
    insertHalves leaf leaf.left leaf.right leftValue rightValue t =
      .ok () (t.halved leaf leftValue rightValue) := by
  have h₁ := insert_run hl ⟨leftValue, leaf.left.power, none, none⟩
  have hr' : (t.put leaf.left ⟨leftValue, leaf.left.power, none, none⟩).contains
      leaf.right = false := by
    rw [contains_put, hr]
    simp [left_ne_right]
  have h₂ := insert_run hr' ⟨rightValue, leaf.right.power, none, none⟩
  have hparent : ((t.put leaf.left ⟨leftValue, leaf.left.power, none, none⟩).put
      leaf.right ⟨rightValue, leaf.right.power, none, none⟩).contains leaf = true := by
    simp [contains_put, hleaf]
  have hleft : ((t.put leaf.left ⟨leftValue, leaf.left.power, none, none⟩).put
      leaf.right ⟨rightValue, leaf.right.power, none, none⟩).find? leaf.left =
        some ⟨leftValue, leaf.left.power, none, none⟩ := by
    rw [find?_put_of_ne _ _ (left_ne_right leaf leaf).symm, find?_put_self]
  have h₃ := linkHalves_run hparent (contains_left leaf) (contains_right leaf)
    (left_ne_right leaf leaf) hleft (find?_put_self _ _ _)
  rw [insertHalves, bind_of_ok h₁, bind_of_ok h₂, h₃]
  congr 1
  apply ext_find?
  intro key
  simp only [halved, find?_put]
  split
  · rfl
  · split <;> rfl

/-- The program that adds the neighbour and the parent runs without a fault. -/
theorem FullUnder.insertAround_run {t : Tree V} {root : DyadicInterval} {node : Node V}
    (h : t.FullUnder root) (hnode : t.find? root = some node) (neighbourValue value : V) :
    (do
      insert root.sibling ⟨neighbourValue, root.sibling.power, none, none⟩
      insert root.parent ⟨value, min node.accuracy root.sibling.power, none, none⟩
      match root.half with
      | .left => linkHalves root.parent root root.sibling
      | .right => linkHalves root.parent root.sibling root : Edit V Unit) t =
      .ok () (t.grown root node neighbourValue value) := by
  have hps := parent_ne_sibling root
  have h₁ := insert_run h.not_contains_sibling_root
    ⟨neighbourValue, root.sibling.power, none, none⟩
  have hno : (t.put root.sibling ⟨neighbourValue, root.sibling.power, none, none⟩).contains
      root.parent = false := by
    rw [contains_put, h.not_contains_parent_root]
    simp [hps.symm]
  have h₂ := insert_run hno ⟨value, min node.accuracy root.sibling.power, none, none⟩
  have hmem : ((t.put root.sibling ⟨neighbourValue, root.sibling.power, none, none⟩).put
      root.parent ⟨value, min node.accuracy root.sibling.power, none, none⟩).contains
        root.parent = true := by
    simp [contains_put]
  have hsib : ((t.put root.sibling ⟨neighbourValue, root.sibling.power, none, none⟩).put
      root.parent ⟨value, min node.accuracy root.sibling.power, none, none⟩).find? root.sibling =
        some ⟨neighbourValue, root.sibling.power, none, none⟩ := by
    rw [find?_put_of_ne _ _ hps, find?_put_self]
  have hroot : ((t.put root.sibling ⟨neighbourValue, root.sibling.power, none, none⟩).put
      root.parent ⟨value, min node.accuracy root.sibling.power, none, none⟩).find? root =
        some node := by
    rw [find?_put_of_ne _ _ (parent_ne root), find?_put_of_ne _ _ (sibling_ne root), hnode]
  rw [bind_of_ok h₁, bind_of_ok h₂]
  cases hh : root.half with
  | left =>
    have h₃ := linkHalves_run hmem (parent_contains root) (parent_contains_sibling root)
      (sibling_ne root).symm hroot hsib
    simp only [h₃]
    congr 1
    apply ext_find?
    intro key
    simp only [Tree.grown, find?_put, sibling_power]
    grind [Node.linked, sibling_ne, parent_ne]
  | right =>
    have h₃ := linkHalves_run hmem (parent_contains_sibling root) (parent_contains root)
      (sibling_ne root) hsib hroot
    simp only [h₃]
    congr 1
    apply ext_find?
    intro key
    simp only [Tree.grown, find?_put, sibling_power]
    grind [Node.linked, sibling_ne, parent_ne]

end Tree

end SignatureCache
