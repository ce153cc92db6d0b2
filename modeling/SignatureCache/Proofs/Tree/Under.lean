import Mathlib.Data.List.TakeWhile
import SignatureCache.Proofs.Tree.Keys

/-!
# Keys under an interval

In key order the keys nested in an interval are one run: what comes between two of them is nested in
it too, and the interval itself would come first. So a scan that starts at the interval and stops at
the first key that is not nested in it finds all of them, in any tree, whether or not the interval
is a key of its own.
-/

namespace SignatureCache

namespace Tree

open DyadicInterval

variable {V : Type}

section Initial

variable {α : Type} {p : α → Bool} {l : List α}

/-- A property that no member of a list regains holds of its first members. -/
theorem takeWhile_eq_filter (h : l.Pairwise fun x y => p y = true → p x = true) :
    l.takeWhile p = l.filter p := by
  induction l with
  | nil => rfl
  | cons x l ih =>
    obtain ⟨hx, hl⟩ := List.pairwise_cons.1 h
    by_cases hp : p x = true
    · rw [List.takeWhile_cons_of_pos hp, List.filter_cons_of_pos hp, ih hl]
    · rw [List.takeWhile_cons_of_neg hp, List.filter_cons_of_neg hp]
      symm
      rw [List.filter_eq_nil_iff]
      exact fun y hy hpy => hp (hx y hy hpy)

theorem dropWhile_eq_filter (h : l.Pairwise fun x y => p y = true → p x = true) :
    l.dropWhile p = l.filter fun x => !p x := by
  induction l with
  | nil => rfl
  | cons x l ih =>
    obtain ⟨hx, hl⟩ := List.pairwise_cons.1 h
    by_cases hp : p x = true
    · rw [List.dropWhile_cons_of_pos hp, List.filter_cons_of_neg (by simp [hp]), ih hl]
    · rw [List.dropWhile_cons_of_neg hp]
      symm
      rw [List.filter_eq_self]
      intro y hy
      rcases List.mem_cons.1 hy with rfl | hy
      · simpa using hp
      · simpa using fun hpy => hp (hx y hy hpy)

end Initial

theorem pairwise_entries (t : Tree V) : t.entries.Pairwise fun a b => Before a.1 b.1 := by
  rw [← List.pairwise_map (f := Prod.fst) (R := Before), map_fst_entries]
  exact t.pairwise_keys

/-- Before an interval are only the first entries. -/
theorem dropWhile_before_eq_filter (t : Tree V) (top : DyadicInterval) :
    (t.entries.dropWhile fun entry => compare entry.1 top == .lt) =
      t.entries.filter fun entry => !(compare entry.1 top == .lt) := by
  apply dropWhile_eq_filter
  refine t.pairwise_entries.imp ?_
  intro a b hab hb
  exact beq_iff_eq.2 (Before.trans hab (beq_iff_eq.1 hb))

/-- From an interval on, the first entries are those nested in it. -/
theorem pairwise_from (t : Tree V) (top : DyadicInterval) :
    (t.entries.filter fun entry => !(compare entry.1 top == .lt)).Pairwise fun a b =>
      top.contains b.1 = true → top.contains a.1 = true := by
  rw [List.pairwise_filter]
  refine t.pairwise_entries.imp ?_
  intro a b hab ha _ hb
  have hfrom : ¬ compare a.1 top = .lt := by simpa using ha
  exact contains_of_before hb hfrom hab

/-- The scan that stops at the first key outside of an interval finds all keys nested in it. -/
theorem under_eq_filter (t : Tree V) (top : DyadicInterval) :
    t.under top = t.entries.filter fun entry => top.contains entry.1 := by
  rw [under, dropWhile_before_eq_filter, takeWhile_eq_filter (t.pairwise_from top),
    List.filter_filter]
  apply List.filter_congr
  intro entry _
  cases hc : top.contains entry.1 with
  | false => rfl
  | true =>
    have hfrom : ¬ compare entry.1 top = .lt := not_before_of_contains hc
    simp [hfrom]

/-- The keys under an interval lie between those before it and those past its end. -/
theorem exists_entries_eq (t : Tree V) (top : DyadicInterval) :
    ∃ earlier later, t.entries = earlier ++ t.under top ++ later ∧
      (∀ entry ∈ earlier, Before entry.1 top) ∧
      ∀ entry ∈ later, top.upper ≤ entry.1.lower := by
  refine ⟨t.entries.takeWhile fun entry => compare entry.1 top == .lt,
    (t.entries.dropWhile fun entry => compare entry.1 top == .lt).dropWhile fun entry =>
      top.contains entry.1, ?_, ?_, ?_⟩
  · rw [List.append_assoc, under, List.takeWhile_append_dropWhile,
      List.takeWhile_append_dropWhile]
  · intro entry hentry
    have hbefore := List.mem_takeWhile_imp hentry
    exact beq_iff_eq.1 hbefore
  · rw [dropWhile_before_eq_filter, dropWhile_eq_filter (t.pairwise_from top)]
    intro entry hentry
    simp only [List.mem_filter, Bool.not_eq_true', beq_eq_false_iff_ne] at hentry
    refine (contains_or_upper_le hentry.1.2).resolve_left ?_
    simp [hentry.2]

/-- What a scan from an interval on finds are exactly the entries nested in the interval, each once
and in key order. In the order of all entries they are one run, after those that come before the
interval and before those that start where it ends or later. -/
theorem under_complete (t : Tree V) (top : DyadicInterval) :
    t.under top = (t.entries.filter fun entry => top.contains entry.1) ∧
    (∀ key node, (key, node) ∈ t.under top ↔
      t.find? key = some node ∧ top.contains key = true) ∧
    ((t.under top).Pairwise fun a b => Before a.1 b.1) ∧
    ∃ earlier later, t.entries = earlier ++ t.under top ++ later ∧
      (∀ entry ∈ earlier, Before entry.1 top) ∧
      ∀ entry ∈ later, top.upper ≤ entry.1.lower := by
  refine ⟨t.under_eq_filter top, ?_, ?_, t.exists_entries_eq top⟩
  · intro key node
    rw [under_eq_filter, List.mem_filter, mem_entries_iff]
  · rw [under_eq_filter]
    exact t.pairwise_entries.filter _

end Tree

end SignatureCache
