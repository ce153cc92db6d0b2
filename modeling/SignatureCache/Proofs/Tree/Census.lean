import Mathlib.Data.List.Basic
import Mathlib.Data.List.Perm.Basic
import Mathlib.Algebra.BigOperators.Group.List.Basic
import SignatureCache.Proofs.Tree.Shape

/-!
# A census of the nodes

How many nodes a tree has, how many of them are leaves, and what a quantity that each node
contributes to comes to. Setting one node adds it, or exchanges what it contributes, so each of the
edits has one equation for each of the three.
-/

namespace SignatureCache

namespace Tree

open DyadicInterval

variable {V : Type} {t : Tree V} {root leaf key : DyadicInterval} {node old : Node V}
  {weight : DyadicInterval → Node V → Int}

/-- The keys that nothing lies below. -/
def leaves (t : Tree V) : List DyadicInterval :=
  t.keys.filter fun key => !t.contains key.left

/-- What all nodes weigh together. -/
def total (t : Tree V) (weight : DyadicInterval → Node V → Int) : Int :=
  (t.entries.map fun entry => weight entry.1 entry.2).sum

theorem mem_leaves_iff : key ∈ t.leaves ↔ t.contains key = true ∧ t.contains key.left = false := by
  rw [leaves, List.mem_filter, mem_keys_iff, Bool.not_eq_true']

theorem nodup_keys (t : Tree V) : t.keys.Nodup := by
  apply t.pairwise_keys.imp
  rintro I J hlt rfl
  exact Before.irrefl I hlt

theorem nodup_entries (t : Tree V) : t.entries.Nodup := by
  apply List.Nodup.of_map Prod.fst
  rw [map_fst_entries]
  exact t.nodup_keys

theorem nodup_leaves (t : Tree V) : t.leaves.Nodup :=
  t.nodup_keys.filter _

/-! ### One node -/

theorem put_eq_self (h : t.find? key = some node) : t.put key node = t := by
  apply ext_find?
  intro other
  rw [find?_put]
  split
  · next heq => rw [← heq, h]
  · rfl

theorem entries_put (t : Tree V) (key : DyadicInterval) (node : Node V) :
    (t.put key node).entries.Perm ((key, node) :: t.entries.filter fun entry => entry.1 ≠ key) := by
  rw [List.perm_ext_iff_of_nodup (nodup_entries _)]
  · rintro ⟨other, found⟩
    rw [mem_entries_iff, find?_put, List.mem_cons, List.mem_filter, mem_entries_iff, Prod.mk.injEq]
    by_cases heq : key = other
    · simp [heq, eq_comm]
    · simp [heq, Ne.symm heq]
  · rw [List.nodup_cons]
    exact ⟨by simp, t.nodup_entries.filter _⟩

/-- Exchanging a node exchanges its weight. -/
theorem total_put_old (h : t.find? key = some old) (weight : DyadicInterval → Node V → Int)
    (node : Node V) :
    (t.put key node).total weight = t.total weight - weight key old + weight key node := by
  have hnew := ((t.entries_put key node).map fun entry => weight entry.1 entry.2).sum_eq
  have hold := ((t.entries_put key old).map fun entry => weight entry.1 entry.2).sum_eq
  rw [put_eq_self h] at hold
  simp only [List.map_cons, List.sum_cons] at hnew hold
  rw [total, total, hnew, hold]
  omega

theorem total_put_new (h : t.contains key = false) (weight : DyadicInterval → Node V → Int)
    (node : Node V) : (t.put key node).total weight = t.total weight + weight key node := by
  have hnew := ((t.entries_put key node).map fun entry => weight entry.1 entry.2).sum_eq
  have hall : (t.entries.filter fun entry => entry.1 ≠ key) = t.entries := by
    rw [List.filter_eq_self]
    rintro ⟨other, found⟩ hmem
    have hother := contains_of_find? ((mem_entries_iff t other found).1 hmem)
    rw [decide_eq_true_eq]
    rintro rfl
    simp [h] at hother
  rw [hall] at hnew
  simp only [List.map_cons, List.sum_cons] at hnew
  rw [total, total, hnew]
  omega

theorem total_congr {weight' : DyadicInterval → Node V → Int}
    (h : ∀ key node, t.find? key = some node → weight key node = weight' key node) :
    t.total weight = t.total weight' := by
  apply congrArg List.sum
  apply List.map_congr_left
  rintro ⟨key, node⟩ hmem
  exact h key node ((mem_entries_iff t key node).1 hmem)

@[simp] theorem total_empty (weight : DyadicInterval → Node V → Int) :
    (empty : Tree V).total weight = 0 := by
  have hnil : (empty : Tree V).entries = [] := by
    rw [List.eq_nil_iff_forall_not_mem]
    rintro ⟨key, node⟩ hmem
    simp [mem_entries_iff] at hmem
  rw [total, hnil, List.map_nil, List.sum_nil]

/-- The size is a total, too. -/
theorem total_one (t : Tree V) : (t.total fun _ _ => 1) = t.size := by
  rw [total, List.map_const', List.sum_replicate, ← length_keys, ← map_fst_entries,
    List.length_map]
  simp

/-! ### The edits -/

theorem total_plant (I : DyadicInterval) (node : Node V) (weight : DyadicInterval → Node V → Int) :
    ((empty : Tree V).put I node).total weight = weight I node := by
  rw [total_put_new (contains_empty I), total_empty]
  omega

theorem size_plant (I : DyadicInterval) (node : Node V) :
    ((empty : Tree V).put I node).size = 1 := by
  have htotal := total_plant I node fun _ _ => 1
  rw [total_one] at htotal
  omega

theorem leaves_plant (I : DyadicInterval) (node : Node V) :
    ((empty : Tree V).put I node).leaves.Perm [I] := by
  have hno := not_contains_left_plant I node
  rw [List.perm_ext_iff_of_nodup (nodup_leaves _) (List.nodup_singleton I)]
  intro key
  rw [mem_leaves_iff, List.mem_singleton, contains_put, contains_empty, Bool.or_false,
    decide_eq_true_eq]
  constructor
  · rintro ⟨rfl, -⟩
    rfl
  · rintro rfl
    exact ⟨rfl, hno⟩

/-- Two halves add their weights. -/
theorem FullUnder.total_halved (h : t.FullUnder root) (hleaf : t.contains leaf = true)
    (hl : t.contains leaf.left = false) (leftValue rightValue : V)
    (weight : DyadicInterval → Node V → Int) :
    (t.halved leaf leftValue rightValue).total weight = t.total weight +
      weight leaf.left ⟨leftValue, leaf.power + 1, some leaf, some leaf.right⟩ +
      weight leaf.right ⟨rightValue, leaf.power + 1, some leaf, some leaf.left⟩ := by
  have hr : (t.put leaf.left ⟨leftValue, leaf.power + 1, some leaf, some leaf.right⟩).contains
      leaf.right = false := by
    rw [contains_put, h.not_contains_right hleaf hl]
    simp [left_ne_right]
  rw [Tree.halved, total_put_new hr, total_put_new hl]

/-- A neighbour and a parent add their weights, and the root is linked. -/
theorem FullUnder.total_grown (h : t.FullUnder root) (hnode : t.find? root = some node)
    (neighbourValue value : V) (weight : DyadicInterval → Node V → Int) :
    (t.grown root node neighbourValue value).total weight = t.total weight +
      weight root.sibling ⟨neighbourValue, root.power, some root.parent, some root⟩ +
      weight root.parent ⟨value, min node.accuracy root.power, none, none⟩ -
      weight root node + weight root (node.linked root.parent root.sibling) := by
  have hp : (t.put root.sibling
      ⟨neighbourValue, root.power, some root.parent, some root⟩).contains root.parent = false := by
    rw [contains_put, h.not_contains_parent_root]
    simp [(parent_ne_sibling root).symm]
  have hroot : ((t.put root.sibling
      ⟨neighbourValue, root.power, some root.parent, some root⟩).put root.parent
        ⟨value, min node.accuracy root.power, none, none⟩).find? root = some node := by
    rw [find?_put_of_ne _ _ (parent_ne root), find?_put_of_ne _ _ (sibling_ne root), hnode]
  rw [Tree.grown, total_put_old hroot, total_put_new hp, total_put_new h.not_contains_sibling_root]

theorem FullUnder.size_halved (h : t.FullUnder root) (hleaf : t.contains leaf = true)
    (hl : t.contains leaf.left = false) (leftValue rightValue : V) :
    (t.halved leaf leftValue rightValue).size = t.size + 2 := by
  have htotal := h.total_halved hleaf hl leftValue rightValue fun _ _ => 1
  rw [total_one, total_one] at htotal
  omega

theorem FullUnder.size_grown (h : t.FullUnder root) (hnode : t.find? root = some node)
    (neighbourValue value : V) :
    (t.grown root node neighbourValue value).size = t.size + 2 := by
  have htotal := h.total_grown hnode neighbourValue value fun _ _ => 1
  rw [total_one, total_one] at htotal
  omega

theorem size_put_old (h : t.find? key = some old) (node : Node V) :
    (t.put key node).size = t.size := by
  have htotal := total_put_old h (fun _ _ => 1) node
  rw [total_one, total_one] at htotal
  omega

/-- Both halves take the place of the leaf. -/
theorem FullUnder.leaves_halved (h : t.FullUnder root) (hleaf : t.contains leaf = true)
    (hl : t.contains leaf.left = false) (leftValue rightValue : V) :
    (t.halved leaf leftValue rightValue).leaves.Perm
      (leaf.left :: leaf.right :: t.leaves.erase leaf) := by
  have hll := h.not_contains_left_half hleaf hl (contains_left leaf) rfl leftValue rightValue
  have hrl := h.not_contains_left_half hleaf hl (contains_right leaf) rfl leftValue rightValue
  have hr := h.not_contains_right hleaf hl
  have hold : ∀ key : DyadicInterval,
      (t.halved leaf leftValue rightValue).contains key.left = true ↔
        key = leaf ∨ t.contains key.left = true := by
    intro key
    rw [contains_halved]
    constructor
    · rintro (heq | heq | hc)
      · exact .inl (by rw [← parent_left key, heq, parent_left])
      · exact absurd heq (left_ne_right key leaf)
      · exact .inr hc
    · rintro (rfl | hc)
      · exact .inl rfl
      · exact .inr (.inr hc)
  rw [List.perm_ext_iff_of_nodup (nodup_leaves _)]
  · intro key
    rw [mem_leaves_iff, List.mem_cons, List.mem_cons, t.nodup_leaves.mem_erase_iff, mem_leaves_iff,
      contains_halved]
    constructor
    · rintro ⟨rfl | rfl | hkey, hno⟩
      · exact .inl rfl
      · exact .inr (.inl rfl)
      · rw [Bool.eq_false_iff, ne_eq, hold, not_or] at hno
        exact .inr (.inr ⟨hno.1, hkey, Bool.eq_false_iff.2 hno.2⟩)
    · rintro (rfl | rfl | ⟨hne, hkey, hno⟩)
      · exact ⟨.inl rfl, hll⟩
      · exact ⟨.inr (.inl rfl), hrl⟩
      · refine ⟨.inr (.inr hkey), ?_⟩
        rw [Bool.eq_false_iff, ne_eq, hold, not_or]
        exact ⟨hne, Bool.eq_false_iff.1 hno⟩
  · rw [List.nodup_cons, List.nodup_cons]
    refine ⟨?_, ?_, t.nodup_leaves.erase leaf⟩
    · rw [List.mem_cons, not_or]
      refine ⟨left_ne_right leaf leaf, fun hmem => ?_⟩
      have hmem := (mem_leaves_iff.1 (List.mem_of_mem_erase hmem)).1
      simp [hl] at hmem
    · intro hmem
      have hmem := (mem_leaves_iff.1 (List.mem_of_mem_erase hmem)).1
      simp [hr] at hmem

/-- The neighbour of a root is a new leaf, and the only one. -/
theorem FullUnder.leaves_grown (h : t.FullUnder root) (node : Node V) (neighbourValue value : V) :
    (t.grown root node neighbourValue value).leaves.Perm (root.sibling :: t.leaves) := by
  have hsl := h.not_contains_left_grown_sibling node neighbourValue value
  have hpl : (t.grown root node neighbourValue value).contains root.parent.left = true := by
    rw [h.contains_grown]
    rcases eq_left_or_eq_right root with heq | heq
    · rw [← heq]
      exact .inr (.inr h.contains_root)
    · left
      conv_rhs => rw [heq]
      rw [sibling_right]
  have hold : ∀ {key}, t.contains key = true →
      (t.grown root node neighbourValue value).contains key.left = t.contains key.left := by
    intro key hkey
    rw [contains_eq_isSome, (h.find?_grown_halves hkey node neighbourValue value).1,
      ← contains_eq_isSome]
  rw [List.perm_ext_iff_of_nodup (nodup_leaves _)]
  · intro key
    rw [mem_leaves_iff, List.mem_cons, mem_leaves_iff, h.contains_grown]
    constructor
    · rintro ⟨rfl | rfl | hkey, hno⟩
      · exact .inl rfl
      · simp [hpl] at hno
      · exact .inr ⟨hkey, hold hkey ▸ hno⟩
    · rintro (rfl | ⟨hkey, hno⟩)
      · exact ⟨.inl rfl, hsl⟩
      · exact ⟨.inr (.inr hkey), (hold hkey).trans hno⟩
  · rw [List.nodup_cons, mem_leaves_iff, h.not_contains_sibling_root]
    exact ⟨by simp, t.nodup_leaves⟩

theorem leaves_put_old (h : t.find? key = some old) (node : Node V) :
    (t.put key node).leaves = t.leaves := by
  have hkeys := contains_put_of_contains (contains_of_find? h) node
  rw [leaves, leaves, keys_eq_of_contains hkeys]
  apply List.filter_congr
  intro other _
  rw [hkeys]

end Tree

end SignatureCache
