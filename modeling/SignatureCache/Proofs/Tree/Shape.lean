import Mathlib.Data.List.Sort
import SignatureCache.Proofs.Tree.Accuracy
import SignatureCache.Tree.Fingerprint

/-!
# The shape of a tree

Two trees have one shape if they have the same keys with the same accuracies and links, whatever
their values are. In full trees with exact accuracies the keys decide all of it: links follow from
the geometry and accuracies from the leaves. The fingerprint hashes the shape and nothing else.
-/

namespace SignatureCache

namespace Tree

open DyadicInterval

variable {V V' : Type} {t : Tree V} {t' : Tree V'} {root key : DyadicInterval}

/-- The trees have the same keys, with the same accuracies and links. -/
structure SameShape (t : Tree V) (t' : Tree V') : Prop where
  accuracy?_eq : ∀ key, t'.accuracy? key = t.accuracy? key
  parent?_eq : ∀ key, t'.parent? key = t.parent? key
  sibling?_eq : ∀ key, t'.sibling? key = t.sibling? key

/-! ### What the keys decide -/

theorem LeastPower.unique {power power' : Int} (h : t.LeastPower key power)
    (h' : t'.LeastPower key power') (hkeys : ∀ J, t'.contains J = t.contains J) :
    power' = power := by
  obtain ⟨hle, J, hJ, hJl, hJc, hJp⟩ := h
  obtain ⟨hle', K, hK, hKl, hKc, hKp⟩ := h'
  have h₁ := hle (hkeys K ▸ hK) (hkeys K.left ▸ hKl) hKc
  have h₂ := hle' ((hkeys J).symm ▸ hJ) ((hkeys J.left).symm ▸ hJl) hJc
  omega

theorem accuracy?_eq_none (h : t.contains key = false) : t.accuracy? key = none := by
  rw [accuracy?, find?_eq_none_of_not_contains h]
  rfl

theorem accuracy?_of_find? {node : Node V} (h : t.find? key = some node) :
    t.accuracy? key = some node.accuracy := by
  rw [accuracy?, h, Option.map_some]

theorem FullUnder.parent?_eq_ite (h : t.FullUnder root) (key : DyadicInterval) :
    t.parent? key = if t.contains key = true ∧ key ≠ root then some key.parent else none := by
  split
  · next hif => exact h.parent?_eq hif.1 hif.2
  · next hif =>
    cases hkey : t.contains key with
    | false => rw [parent?, find?_eq_none_of_not_contains hkey, Option.bind_none]
    | true =>
      rw [not_and, not_not] at hif
      rw [hif hkey]
      exact h.unlinked.1

theorem FullUnder.sibling?_eq_ite (h : t.FullUnder root) (key : DyadicInterval) :
    t.sibling? key = if t.contains key = true ∧ key ≠ root then some key.sibling else none := by
  split
  · next hif => exact h.sibling?_eq hif.1 hif.2
  · next hif =>
    cases hkey : t.contains key with
    | false => rw [sibling?, find?_eq_none_of_not_contains hkey, Option.bind_none]
    | true =>
      rw [not_and, not_not] at hif
      rw [hif hkey]
      exact h.unlinked.2

/-- Full trees with exact accuracies and the same keys under one root have one shape. -/
theorem sameShape_of_keys (h : t.FullUnder root) (h' : t'.FullUnder root) (hx : t.Exact)
    (hx' : t'.Exact) (hkeys : ∀ key, t'.contains key = t.contains key) : SameShape t t' where
  accuracy?_eq := by
    intro key
    cases hkey : t.contains key with
    | false => rw [accuracy?_eq_none hkey, accuracy?_eq_none ((hkeys key).trans hkey)]
    | true =>
      obtain ⟨node, hnode⟩ := exists_find?_of_contains hkey
      obtain ⟨node', hnode'⟩ := exists_find?_of_contains ((hkeys key).trans hkey)
      have heq := (hx.least h hnode).unique (hx'.least h' hnode') hkeys
      rw [accuracy?, accuracy?, hnode, hnode']
      exact congrArg some heq
  parent?_eq := by
    intro key
    rw [h.parent?_eq_ite, h'.parent?_eq_ite, hkeys]
  sibling?_eq := by
    intro key
    rw [h.sibling?_eq_ite, h'.sibling?_eq_ite, hkeys]

/-! ### What the shape decides -/

theorem SameShape.contains_eq (h : SameShape t t') (key : DyadicInterval) :
    t'.contains key = t.contains key := by
  have hacc := congrArg Option.isSome (h.accuracy?_eq key)
  rwa [accuracy?, accuracy?, Option.isSome_map, Option.isSome_map, ← contains_eq_isSome,
    ← contains_eq_isSome] at hacc

/-- Trees of one shape with the same values are equal. -/
theorem SameShape.eq {t t' : Tree V} (h : SameShape t t')
    (hvalue : ∀ key node node', t.find? key = some node → t'.find? key = some node' →
      node'.value = node.value) : t' = t := by
  apply ext_find?
  intro key
  cases hnode : t.find? key with
  | none =>
    apply find?_eq_none_of_not_contains
    rw [h.contains_eq, contains_eq_isSome, hnode]
    rfl
  | some node =>
    obtain ⟨node', hnode'⟩ := exists_find?_of_contains
      ((h.contains_eq key).trans (contains_of_find? hnode))
    have hv := hvalue key node node' hnode hnode'
    have ha := h.accuracy?_eq key
    have hp := h.parent?_eq key
    have hs := h.sibling?_eq key
    simp only [accuracy?, parent?, sibling?, hnode, hnode', Option.map_some, Option.bind_some,
      Option.some.injEq] at ha hp hs
    rw [hnode']
    cases node
    cases node'
    simp_all

instance : Std.Irrefl Before :=
  ⟨Before.irrefl⟩

instance : Std.Antisymm Before :=
  ⟨fun _ _ h h' => absurd h' h.asymm⟩

theorem keys_eq_of_contains (hkeys : ∀ key, t'.contains key = t.contains key) :
    t'.keys = t.keys := by
  have hmem : ∀ key, key ∈ t'.keys ↔ key ∈ t.keys := by
    intro key
    rw [mem_keys_iff, mem_keys_iff, hkeys]
  exact List.Subset.antisymm_of_pairwise (r := Before) t'.pairwise_keys t.pairwise_keys
    (fun key => (hmem key).1) (fun key => (hmem key).2)

/-- What is hashed, read off the keys one after the other. -/
theorem shapeBytes_eq (t : Tree V) :
    t.shapeBytes = t.keys.flatMap fun key =>
      (t.find? key).elim [] (Fingerprint.entryBytes key) := by
  rw [shapeBytes, ← map_fst_entries, List.flatMap_map]
  apply List.flatMap_congr
  rintro ⟨key, node⟩ hmem
  rw [(mem_entries_iff t key node).1 hmem]
  rfl

theorem SameShape.shapeBytes_eq (h : SameShape t t') : t'.shapeBytes = t.shapeBytes := by
  rw [Tree.shapeBytes_eq, Tree.shapeBytes_eq, keys_eq_of_contains h.contains_eq]
  apply List.flatMap_congr
  intro key hmem
  have hkey := (mem_keys_iff t key).1 hmem
  obtain ⟨node, hnode⟩ := exists_find?_of_contains hkey
  obtain ⟨node', hnode'⟩ := exists_find?_of_contains ((h.contains_eq key).trans hkey)
  have hacc : node'.accuracy = node.accuracy := by
    simpa [accuracy?, hnode, hnode'] using h.accuracy?_eq key
  have hparent : node'.parent? = node.parent? := by
    rw [← parent?_of_find? hnode, ← parent?_of_find? hnode', h.parent?_eq]
  have hsibling : node'.sibling? = node.sibling? := by
    rw [← sibling?_of_find? hnode, ← sibling?_of_find? hnode', h.sibling?_eq]
  rw [hnode, hnode', Option.elim_some, Option.elim_some, Fingerprint.entryBytes,
    Fingerprint.entryBytes, hacc, hparent, hsibling]

/-- Trees of one shape have one fingerprint. -/
theorem SameShape.fingerprint_eq (h : SameShape t t') : t'.fingerprint = t.fingerprint := by
  rw [fingerprint, fingerprint, h.shapeBytes_eq]

end Tree

end SignatureCache
