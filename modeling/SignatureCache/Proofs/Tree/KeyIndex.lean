import SignatureCache.Proofs.DyadicInterval.Far
import SignatureCache.Tree.Indexed

/-!
# What a search in an index finds

A search goes down one path of the index and sees few of its keys. As all keys are in order, and
comparisons in words are exact where they do not overflow, it finds a key exactly if the index, and
with it the tree, has it. So it is the tree that answers, once the search has come to an end.
-/

namespace SignatureCache

open DyadicInterval

namespace Row

variable {α : Type} {key : DyadicInterval} {below : α → List DyadicInterval}

/-- If searches below find what is there, so does the search in a row. -/
theorem mem_keys_iff {search : α → Except Fault Bool} (hkey : key.InWords)
    (hbelow : ∀ node, (below node).Pairwise (fun I J => compare I J = .lt) →
      (∀ k ∈ below node, k.InWords) → ∀ found, search node = .ok found →
        (found = true ↔ key ∈ below node))
    {row : Row α} (ordered : (row.keys below).Pairwise fun I J => compare I J = .lt)
    (words : ∀ k ∈ row.keys below, k.InWords) {found : Bool}
    (h : row.search key search = .ok found) : found = true ↔ key ∈ row.keys below := by
  induction row with
  | last node => exact hbelow node ordered words found h
  | cons node other rest ih =>
    rw [keys] at ordered words ⊢
    obtain ⟨hnode, hrest, hacross⟩ := List.pairwise_append.1 ordered
    obtain ⟨hother, hrest⟩ := List.pairwise_cons.1 hrest
    have hwords := List.forall_mem_append.1 words
    obtain ⟨hwordsNode, hwordOther, hwordsRest⟩ := And.imp_right List.forall_mem_cons.1 hwords
    rw [Row.search] at h
    rw [List.mem_append, List.mem_cons]
    cases hcompare : key.compare? other with
    | error cause =>
      rw [hcompare] at h
      cases h
    | ok order =>
      have horder := hkey.eq_of_compare? hwordOther hcompare
      rw [hcompare] at h
      cases order with
      | lt =>
        have hbefore : Before key other := horder.symm
        have hnot : ¬(key = other ∨ key ∈ rest.keys below) := by
          rintro (rfl | hmem)
          · exact Before.irrefl key hbefore
          · exact Before.asymm hbefore (hother key hmem)
        rw [or_iff_left hnot]
        exact hbelow node hnode hwordsNode found h
      | eq =>
        cases h
        have hself : key = other := Std.LawfulEqCmp.eq_of_compare horder.symm
        simp [hself]
      | gt =>
        have hbefore : Before other key := Std.OrientedCmp.gt_iff_lt.1 horder.symm
        have hnot : key ∉ below node :=
          fun hmem => Before.asymm hbefore (hacross key hmem other List.mem_cons_self)
        have hne : key ≠ other := by
          rintro rfl
          exact Before.irrefl key hbefore
        rw [or_iff_right hnot, or_iff_right hne]
        exact ih hrest hwordsRest h

end Row

/-- A search below a node finds what is there. -/
theorem Level.mem_keys_iff {key : DyadicInterval} (hkey : key.InWords) :
    {n : Nat} → {node : Level n} → (keys n node).Pairwise (fun I J => compare I J = .lt) →
      (∀ k ∈ keys n node, k.InWords) → ∀ found, search key n node = .ok found →
        (found = true ↔ key ∈ keys n node)
  | 0, _, _, _, _, h => by
    cases h
    simp [keys]
  | _ + 1, _, ordered, words, _, h =>
    Row.mem_keys_iff hkey (fun _ => Level.mem_keys_iff hkey) ordered words h

/-- A search that does not break off finds exactly the keys of the tree. -/
theorem IndexedTree.found_eq {V : Type} {t : IndexedTree V} {key : DyadicInterval}
    (hkey : key.InWords) (words : ∀ k, t.tree.contains k = true → k.InWords) {found : Bool}
    (h : t.index.search key = .ok found) : found = t.tree.contains key := by
  have hfound := Level.mem_keys_iff hkey t.index.ordered
    (fun k hk => words k ((t.mem_index_iff k).1 hk)) found h
  rw [Bool.eq_iff_iff, hfound]
  exact t.mem_index_iff key

end SignatureCache
