import SignatureCache.Proofs.Tree.Keys

/-!
# Full binary trees

A tree is full under a root if the root contains every key, and every other key has its parent and
its sibling in the tree and is linked to both. Keys then come in whole paths from the root and in
pairs of halves. So a single half tells whether anything lies below a key, and a property holds of
every key if it holds of the leaves and passes from both halves to the key.
-/

namespace SignatureCache

namespace Tree

open DyadicInterval

variable {V : Type}

/-- The keys form a full binary tree under `root`, and the links are those of the tree. -/
structure FullUnder (t : Tree V) (root : DyadicInterval) : Prop where
  contains_root : t.contains root = true
  root_contains : ∀ {key}, t.contains key = true → root.contains key = true
  unlinked : t.parent? root = none ∧ t.sibling? root = none
  contains_parent : ∀ {key}, t.contains key = true → key ≠ root → t.contains key.parent = true
  contains_sibling : ∀ {key}, t.contains key = true → key ≠ root → t.contains key.sibling = true
  parent?_eq : ∀ {key}, t.contains key = true → key ≠ root → t.parent? key = some key.parent
  sibling?_eq : ∀ {key}, t.contains key = true → key ≠ root → t.sibling? key = some key.sibling

/-- The nodes of a key, of its sibling and of its parent. -/
structure Family (t : Tree V) (key : DyadicInterval) (node siblingNode parentNode : Node V) :
    Prop where
  self : t.find? key = some node
  sibling : t.find? key.sibling = some siblingNode
  parent : t.find? key.parent = some parentNode

/-- The tree is empty or full under some root. -/
def Full (t : Tree V) : Prop :=
  t = empty ∨ ∃ root, t.FullUnder root

theorem contains_of_find? {t : Tree V} {key : DyadicInterval} {node : Node V}
    (h : t.find? key = some node) : t.contains key = true := by
  rw [contains_eq_isSome, h]
  rfl

theorem exists_find?_of_contains {t : Tree V} {key : DyadicInterval} (h : t.contains key = true) :
    ∃ node, t.find? key = some node := by
  rwa [contains_eq_isSome, Option.isSome_iff_exists] at h

theorem find?_eq_none_of_not_contains {t : Tree V} {key : DyadicInterval}
    (h : t.contains key = false) : t.find? key = none := by
  rwa [contains_eq_isSome, Option.isSome_eq_false_iff, Option.isNone_iff_eq_none] at h

@[simp] theorem contains_empty (key : DyadicInterval) : (empty : Tree V).contains key = false := by
  simp [contains_eq_isSome]

theorem parent?_of_find? {t : Tree V} {key : DyadicInterval} {node : Node V}
    (h : t.find? key = some node) : t.parent? key = node.parent? := by
  simp [parent?, h]

theorem sibling?_of_find? {t : Tree V} {key : DyadicInterval} {node : Node V}
    (h : t.find? key = some node) : t.sibling? key = node.sibling? := by
  simp [sibling?, h]

theorem Full.exists_fullUnder {t : Tree V} {key : DyadicInterval} (h : t.Full)
    (hkey : t.contains key = true) : ∃ root, t.FullUnder root := by
  apply h.resolve_left
  rintro rfl
  simp at hkey

namespace FullUnder

variable {t : Tree V} {root key J : DyadicInterval}

/-- The root is the first key. -/
theorem root?_eq (h : t.FullUnder root) : t.root? = some root :=
  root?_eq_some_iff.2 ⟨h.contains_root, fun _ hother =>
    not_before_of_contains (h.root_contains hother)⟩

theorem left_ne_root (h : t.FullUnder root) (hkey : t.contains key = true) : key.left ≠ root := by
  have := power_le_of_contains (h.root_contains hkey)
  apply ne_of_power_ne
  rw [left_power]
  omega

theorem right_ne_root (h : t.FullUnder root) (hkey : t.contains key = true) : key.right ≠ root := by
  have := power_le_of_contains (h.root_contains hkey)
  apply ne_of_power_ne
  rw [right_power]
  omega

/-- Everything between the root and a key is a key. -/
theorem contains_of_between (h : t.FullUnder root) (hJ : t.contains J = true)
    (hroot : root.contains key = true) (hkey : key.contains J = true) :
    t.contains key = true := by
  obtain ⟨n, rfl⟩ := contains_iff_ancestor.1 hkey
  clear hkey
  induction n with
  | zero => rwa [ancestor_zero]
  | succ n ih =>
    rw [ancestor_succ] at hroot ⊢
    have hn := ih (contains_trans hroot (parent_contains _))
    apply h.contains_parent hn
    rintro rfl
    simp [not_contains_parent] at hroot

theorem contains_right_of_left (h : t.FullUnder root) (hkey : t.contains key = true)
    (hl : t.contains key.left = true) : t.contains key.right = true := by
  simpa using h.contains_sibling hl (h.left_ne_root hkey)

theorem contains_left_of_right (h : t.FullUnder root) (hkey : t.contains key = true)
    (hr : t.contains key.right = true) : t.contains key.left = true := by
  simpa using h.contains_sibling hr (h.right_ne_root hkey)

theorem not_contains_right (h : t.FullUnder root) (hkey : t.contains key = true)
    (hl : t.contains key.left = false) : t.contains key.right = false := by
  rw [Bool.eq_false_iff] at hl ⊢
  exact fun hr => hl (h.contains_left_of_right hkey hr)

/-- Below a key without a left half there is nothing. -/
theorem eq_of_not_contains_left (h : t.FullUnder root) (hkey : t.contains key = true)
    (hl : t.contains key.left = false) (hJ : t.contains J = true) (hc : key.contains J = true) :
    J = key := by
  by_contra hne
  have hroot := h.root_contains hkey
  have hr := h.not_contains_right hkey hl
  rcases left_contains_or_right_contains hc hne with hleft | hright
  · rw [h.contains_of_between hJ (contains_trans hroot (contains_left key)) hleft] at hl
    cases hl
  · rw [h.contains_of_between hJ (contains_trans hroot (contains_right key)) hright] at hr
    cases hr

theorem not_contains_left_iff (h : t.FullUnder root) (hkey : t.contains key = true) :
    t.contains key.left = false ↔
      ∀ J, t.contains J = true → key.contains J = true → J = key := by
  constructor
  · intro hl J hJ hc
    exact h.eq_of_not_contains_left hkey hl hJ hc
  · intro hall
    rw [Bool.eq_false_iff]
    intro hl
    have heq := hall key.left hl (contains_left key)
    exact ne_of_power_ne (by rw [left_power]; omega) heq

/-- Below the root every key has a family, linked as the geometry says. -/
theorem exists_family (h : t.FullUnder root) (hkey : t.contains key = true) (hne : key ≠ root) :
    ∃ node siblingNode parentNode, t.Family key node siblingNode parentNode ∧
      node.parent? = some key.parent ∧ node.sibling? = some key.sibling := by
  obtain ⟨node, hnode⟩ := exists_find?_of_contains hkey
  obtain ⟨siblingNode, hsibling⟩ := exists_find?_of_contains (h.contains_sibling hkey hne)
  obtain ⟨parentNode, hparent⟩ := exists_find?_of_contains (h.contains_parent hkey hne)
  refine ⟨node, siblingNode, parentNode, ⟨hnode, hsibling, hparent⟩, ?_, ?_⟩
  · rw [← parent?_of_find? hnode, h.parent?_eq hkey hne]
  · rw [← sibling?_of_find? hnode, h.sibling?_eq hkey hne]

end FullUnder

/-! ### Induction from the leaves -/

theorem exists_power_le (t : Tree V) : ∃ bound : Int, ∀ key, t.contains key = true →
    key.power ≤ bound := by
  have h : ∀ keys : List DyadicInterval, ∃ bound : Int, ∀ key ∈ keys, key.power ≤ bound := by
    intro keys
    induction keys with
    | nil => exact ⟨0, by simp⟩
    | cons I keys ih =>
      obtain ⟨bound, hb⟩ := ih
      refine ⟨max I.power bound, ?_⟩
      intro key hkey
      rcases List.mem_cons.1 hkey with rfl | hmem
      · exact le_max_left _ _
      · exact (hb key hmem).trans (le_max_right _ _)
  obtain ⟨bound, hb⟩ := h t.keys
  exact ⟨bound, fun key hkey => hb key ((mem_keys_iff t key).2 hkey)⟩

/-- What holds of every leaf, and of every key whose two halves it holds of, holds of all keys. -/
theorem FullUnder.induction {t : Tree V} {root : DyadicInterval} (h : t.FullUnder root)
    {P : DyadicInterval → Prop}
    (leaf : ∀ key, t.contains key = true → t.contains key.left = false → P key)
    (inner : ∀ key, t.contains key = true → t.contains key.left = true →
      t.contains key.right = true → P key.left → P key.right → P key)
    {key : DyadicInterval} (hkey : t.contains key = true) : P key := by
  obtain ⟨bound, hb⟩ := t.exists_power_le
  -- The induction is on the levels left down to the finest key.
  suffices hall : ∀ n : Nat, ∀ key, t.contains key = true → bound < key.power + n → P key from
    hall (bound - key.power).toNat.succ key hkey (by omega)
  intro n
  induction n with
  | zero =>
    intro key hkey hn
    have := hb key hkey
    omega
  | succ n ih =>
    intro key hkey hn
    cases hl : t.contains key.left with
    | false => exact leaf key hkey hl
    | true =>
      have hr := h.contains_right_of_left hkey hl
      apply inner key hkey hl hr
      · apply ih key.left hl
        rw [left_power]
        omega
      · apply ih key.right hr
        rw [right_power]
        omega

end Tree

end SignatureCache
