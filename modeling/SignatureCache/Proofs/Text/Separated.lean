import Mathlib.Data.List.Basic
import SignatureCache.Text.Separated

/-!
# What the pieces of a separated list are

The pieces of a list are the one way to write it with a separator between neighbours and none within
a piece.
-/

namespace SignatureCache

namespace Separated

variable {α : Type} [BEq α] [LawfulBEq α] {separator : α} {xs : List α} {ps : List (List α)}

omit [LawfulBEq α] in
theorem pieces_eq_splitOn (separator : α) (xs : List α) :
    pieces separator xs = xs.splitOn separator := by
  induction xs with
  | nil => rfl
  | cons x xs ih =>
    rw [pieces_cons, List.splitOn_cons_eq_if_modifyHead, ← ih]
    unfold addFront
    split
    · rfl
    · cases hpieces : pieces separator xs with
      | nil => exact absurd hpieces (pieces_ne_nil separator xs)
      | cons piece rest => rfl

/-- One way to write a list as pieces, which hold no separator, with a separator between
neighbours. -/
structure IsSplit (separator : α) (xs : List α) (ps : List (List α)) : Prop where
  ne_nil : ps ≠ []
  not_mem : ∀ p ∈ ps, separator ∉ p
  intercalate_eq : [separator].intercalate ps = xs

theorem not_mem_of_mem_pieces {p : List α} (h : p ∈ pieces separator xs) : separator ∉ p := by
  induction xs generalizing p with
  | nil =>
    rw [pieces_nil, List.mem_singleton] at h
    simp [h]
  | cons x xs ih =>
    rw [pieces_cons] at h
    unfold addFront at h
    split at h
    · rcases List.mem_cons.1 h with rfl | h
      · exact List.not_mem_nil
      · exact ih h
    next hx =>
      split at h
      · next piece rest hpieces =>
        rw [hpieces] at ih
        rcases List.mem_cons.1 h with rfl | h
        · rw [List.mem_cons, not_or]
          exact ⟨fun heq => hx (beq_iff_eq.2 heq.symm), ih List.mem_cons_self⟩
        · exact ih (List.mem_cons_of_mem piece h)
      · next hpieces => exact absurd hpieces (pieces_ne_nil separator xs)

theorem pieces_eq_iff : pieces separator xs = ps ↔ IsSplit separator xs ps := by
  constructor
  · rintro rfl
    refine ⟨pieces_ne_nil separator xs, fun p hp => not_mem_of_mem_pieces hp, ?_⟩
    rw [pieces_eq_splitOn, List.intercalate_splitOn]
  · rintro ⟨hne, hnot, rfl⟩
    rw [pieces_eq_splitOn, List.splitOn_intercalate separator hnot hne]

omit [BEq α] [LawfulBEq α] in
/-- Pieces before the last one each end with a separator. -/
theorem intercalate_append_singleton (separator : α) (ps : List (List α)) (last : List α) :
    [separator].intercalate (ps ++ [last]) = ps.flatMap (· ++ [separator]) ++ last := by
  induction ps with
  | nil => simp
  | cons p ps ih =>
    cases ps with
    | nil => simp
    | cons q ps =>
      rw [List.cons_append, List.cons_append, List.intercalate_cons_cons, ← List.cons_append, ih]
      simp

end Separated

end SignatureCache
