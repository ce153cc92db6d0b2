import SignatureCache.Tree.Basic

/-!
# Trees by their nodes

A tree is known by what `find?` answers: two trees that agree on every interval are equal, and every
operation is described by what it does to `find?`. Its keys are the intervals that have a node, in
strictly increasing order, and looking for the first or the next key is looking through that list.
-/

namespace SignatureCache

namespace Tree

variable {V : Type}

theorem ext_find? {s t : Tree V} (h : ∀ key, s.find? key = t.find? key) : s = t := by
  cases s
  cases t
  exact congrArg Tree.mk (Std.ExtTreeMap.ext_getElem? h)

@[simp] theorem find?_empty (key : DyadicInterval) : (empty : Tree V).find? key = none :=
  Std.ExtTreeMap.getElem?_empty

theorem find?_put (t : Tree V) (key other : DyadicInterval) (node : Node V) :
    (t.put key node).find? other = if key = other then some node else t.find? other := by
  simp [find?, put, Std.ExtTreeMap.getElem?_insert]

@[simp] theorem find?_put_self (t : Tree V) (key : DyadicInterval) (node : Node V) :
    (t.put key node).find? key = some node := by
  rw [find?_put, if_pos rfl]

theorem find?_put_of_ne (t : Tree V) {key other : DyadicInterval} (node : Node V)
    (h : key ≠ other) : (t.put key node).find? other = t.find? other := by
  rw [find?_put, if_neg h]

theorem contains_eq_isSome (t : Tree V) (key : DyadicInterval) :
    t.contains key = (t.find? key).isSome := by
  simp [contains, find?]

theorem contains_put (t : Tree V) (key other : DyadicInterval) (node : Node V) :
    (t.put key node).contains other = (decide (key = other) || t.contains other) := by
  rw [contains_eq_isSome, contains_eq_isSome, find?_put]
  split <;> simp_all

theorem mem_keys_iff (t : Tree V) (key : DyadicInterval) : key ∈ t.keys ↔ t.contains key = true := by
  rw [keys, contains, Std.ExtTreeMap.mem_keys, Std.ExtTreeMap.mem_iff_contains]

theorem mem_entries_iff (t : Tree V) (key : DyadicInterval) (node : Node V) :
    (key, node) ∈ t.entries ↔ t.find? key = some node :=
  Std.ExtTreeMap.mem_toList_iff_getElem?_eq_some

theorem map_fst_entries (t : Tree V) : t.entries.map Prod.fst = t.keys :=
  Std.ExtTreeMap.map_fst_toList_eq_keys

theorem pairwise_keys (t : Tree V) : t.keys.Pairwise fun I J => compare I J = .lt :=
  Std.ExtTreeMap.ordered_keys

theorem length_keys (t : Tree V) : t.keys.length = t.size :=
  Std.ExtTreeMap.length_keys

theorem root?_eq_head? (t : Tree V) : t.root? = t.keys.head? :=
  Std.ExtTreeMap.minKey?_eq_head?_keys

/-- The first key that does not come before an interval is the first such key of the list. -/
theorem nextFrom?_eq_find? (t : Tree V) (key : DyadicInterval) :
    t.nextFrom? key = t.keys.find? fun other => (compare other key).isGE := by
  obtain ⟨⟨⟨q⟩⟩⟩ := t
  induction q using Quotient.inductionOn with
  | h m =>
    change m.inner.getKeyGE? key = m.inner.keys.find? _
    rw [Std.DTreeMap.Internal.Impl.getKeyGE?_eq_getEntryGE?,
      Std.DTreeMap.Internal.Impl.getEntryGE?_eq_find? m.wf.ordered,
      Std.DTreeMap.Internal.Impl.keys_eq_keys, Std.Internal.List.keys_eq_map, List.find?_map]
    rfl

/-- The first key that comes after an interval is the first such key of the list. -/
theorem nextAfter?_eq_find? (t : Tree V) (key : DyadicInterval) :
    t.nextAfter? key = t.keys.find? fun other => (compare other key).isGT := by
  obtain ⟨⟨⟨q⟩⟩⟩ := t
  induction q using Quotient.inductionOn with
  | h m =>
    change m.inner.getKeyGT? key = m.inner.keys.find? _
    rw [Std.DTreeMap.Internal.Impl.getKeyGT?_eq_getEntryGT?,
      Std.DTreeMap.Internal.Impl.getEntryGT?_eq_find? m.wf.ordered,
      Std.DTreeMap.Internal.Impl.keys_eq_keys, Std.Internal.List.keys_eq_map, List.find?_map]
    rfl

end Tree

end SignatureCache
