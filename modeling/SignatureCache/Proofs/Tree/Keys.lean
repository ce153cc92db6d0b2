import SignatureCache.Tree.Lemmas
import SignatureCache.Proofs.DyadicInterval.Span

/-!
# Looking through the keys

The keys of a tree in order, so that looking for the first key with a property finds the least one.
The root is the least key of all, and the next key is the least one of those that come after.
-/

namespace SignatureCache

namespace Tree

open DyadicInterval

variable {V : Type}

theorem find?_keys_eq_some_iff {t : Tree V} {p : DyadicInterval → Bool} {key : DyadicInterval} :
    t.keys.find? p = some key ↔
      t.contains key = true ∧ p key = true ∧
        ∀ other, t.contains other = true → p other = true → ¬ Before other key := by
  constructor
  · intro h
    obtain ⟨hp, as, bs, hkeys, has⟩ := List.find?_eq_some_iff_append.1 h
    have hord := t.pairwise_keys
    rw [hkeys, List.pairwise_append, List.pairwise_cons] at hord
    refine ⟨?_, hp, ?_⟩
    · rw [← mem_keys_iff, hkeys]
      simp
    · intro other hother hpo hbefore
      rw [← mem_keys_iff, hkeys, List.mem_append, List.mem_cons] at hother
      rcases hother with hmem | rfl | hmem
      · have hno := has other hmem
        simp [hpo] at hno
      · exact Before.irrefl other hbefore
      · exact Before.asymm (hord.2.1.1 other hmem) hbefore
  · rintro ⟨hkey, hp, hleast⟩
    cases h : t.keys.find? p with
    | none =>
      have hnone := List.find?_eq_none.1 h key ((mem_keys_iff t key).2 hkey)
      exact absurd hp hnone
    | some other =>
      have hord := t.pairwise_keys
      obtain ⟨hpo, as, bs, hkeys, has⟩ := List.find?_eq_some_iff_append.1 h
      rw [hkeys, List.pairwise_append, List.pairwise_cons] at hord
      have hmem := (mem_keys_iff t key).2 hkey
      have hother : t.contains other = true := by
        rw [← mem_keys_iff, hkeys]
        simp
      rw [hkeys, List.mem_append, List.mem_cons] at hmem
      rcases hmem with hmem | rfl | hmem
      · have hno := has key hmem
        simp [hp] at hno
      · rfl
      · exact absurd (hord.2.1.1 key hmem) (hleast other hother hpo)

theorem isGE_compare_iff (I J : DyadicInterval) : (compare I J).isGE = true ↔ ¬ Before I J := by
  rw [Before]
  cases compare I J <;> simp

theorem isGT_compare_iff (I J : DyadicInterval) : (compare I J).isGT = true ↔ Before J I := by
  have hswap : compare J I = (compare I J).swap := Std.OrientedCmp.eq_swap
  rw [Before, hswap]
  cases compare I J <;> simp

theorem nextAfter?_eq_some_iff {t : Tree V} {key next : DyadicInterval} :
    t.nextAfter? key = some next ↔
      t.contains next = true ∧ Before key next ∧
        ∀ other, t.contains other = true → Before key other → ¬ Before other next := by
  simp only [nextAfter?_eq_find?, find?_keys_eq_some_iff, isGT_compare_iff]

theorem nextAfter?_eq_none_iff {t : Tree V} {key : DyadicInterval} :
    t.nextAfter? key = none ↔ ∀ other, t.contains other = true → ¬ Before key other := by
  simp only [nextAfter?_eq_find?, List.find?_eq_none, mem_keys_iff, isGT_compare_iff]

theorem nextFrom?_eq_some_iff {t : Tree V} {key next : DyadicInterval} :
    t.nextFrom? key = some next ↔
      t.contains next = true ∧ ¬ Before next key ∧
        ∀ other, t.contains other = true → ¬ Before other key → ¬ Before other next := by
  simp only [nextFrom?_eq_find?, find?_keys_eq_some_iff, isGE_compare_iff]

theorem nextFrom?_eq_none_iff {t : Tree V} {key : DyadicInterval} :
    t.nextFrom? key = none ↔ ∀ other, t.contains other = true → Before other key := by
  simp only [nextFrom?_eq_find?, List.find?_eq_none, mem_keys_iff, isGE_compare_iff, not_not]

theorem root?_eq_some_iff {t : Tree V} {root : DyadicInterval} :
    t.root? = some root ↔
      t.contains root = true ∧ ∀ other, t.contains other = true → ¬ Before other root := by
  have h : t.root? = t.keys.find? fun _ => true := by
    rw [root?_eq_head?]
    cases t.keys <;> simp
  simp [h, find?_keys_eq_some_iff]

theorem root?_eq_none_iff {t : Tree V} : t.root? = none ↔ t = empty := by
  constructor
  · intro h
    apply ext_find?
    intro key
    rw [find?_empty, ← Option.not_isSome_iff_eq_none, ← contains_eq_isSome, ← mem_keys_iff]
    rw [root?_eq_head?, List.head?_eq_none_iff] at h
    simp [h]
  · rintro rfl
    rw [root?_eq_head?, List.head?_eq_none_iff, List.eq_nil_iff_forall_not_mem]
    intro key
    simp [mem_keys_iff, contains_eq_isSome]

end Tree

end SignatureCache
