import SignatureCache.Tree.KeyIndex
import SignatureCache.Tree.Lemmas
import SignatureCache.Tree.Shelf

/-!
# Trees with an index

The shelf of a cache at work: a tree is kept with an index of its keys. A search compares in words
along a path of the index, and breaks off where a comparison does; a test for containment breaks off
where it does by itself. A node for a new key changes the index, a node for an old one does not.
-/

namespace SignatureCache

/-- A tree with an index of its keys. -/
structure IndexedTree (V : Type) where
  tree : Tree V
  index : KeyIndex
  mem_index_iff : ∀ key, key ∈ index.keys ↔ tree.contains key = true

namespace IndexedTree

variable {V : Type}

/-- The tree without nodes. -/
def empty : IndexedTree V where
  tree := .empty
  index := .empty
  mem_index_iff key := by simp [KeyIndex.keys, KeyIndex.empty, Level.keys, Tree.contains_eq_isSome]

/-- The tree with the node of one interval set. -/
def put (t : IndexedTree V) (key : DyadicInterval) (node : Node V) : IndexedTree V :=
  if old : t.tree.contains key = true then
    ⟨t.tree.put key node, t.index, by
      intro other
      rw [t.mem_index_iff, Tree.contains_put]
      by_cases h : key = other
      · simp [← h, old]
      · simp [h]⟩
  else
    have new : key ∉ t.index.keys := fun h => old ((t.mem_index_iff key).1 h)
    ⟨t.tree.put key node, t.index.insert key new, by
      intro other
      rw [(t.index.keys_insert new).mem_iff, t.mem_index_iff, Tree.contains_put, Bool.or_eq_true,
        decide_eq_true_eq]
      exact or_congr_left eq_comm⟩

theorem tree_put (t : IndexedTree V) (key : DyadicInterval) (node : Node V) :
    (t.put key node).tree = t.tree.put key node := by
  rw [put]
  split <;> rfl

/-- How the test whether one interval contains another ends. -/
def test (I J : DyadicInterval) : Except Fault Unit :=
  match I.contains? J with
  | .ok _ => .ok ()
  | .error _ => .error (.incomparable I J)

instance : Shelf V (IndexedTree V) where
  empty := empty
  tree := tree
  put := put
  search t key := discard (t.index.search key)
  test _ := test
  tree_empty := rfl
  tree_put := tree_put
  search_fault {t key fault} h := by
    cases hsearch : t.index.search key with
    | ok found =>
      rw [hsearch] at h
      cases h
    | error cause =>
      rw [hsearch] at h
      cases h
      obtain ⟨other, hother, hcompare, hfault⟩ := KeyIndex.search_fault hsearch
      exact ⟨other, (t.mem_index_iff other).1 hother, hcompare, hfault⟩
  test_fault {_ I J fault} h := by
    rw [test] at h
    cases hcontains : I.contains? J with
    | ok _ =>
      rw [hcontains] at h
      cases h
    | error cause =>
      rw [hcontains] at h
      cases h
      rw [DyadicInterval.onlyOverflows_contains? I J cause hcontains]
      exact ⟨rfl, rfl⟩

end IndexedTree

end SignatureCache
