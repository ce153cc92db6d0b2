/-!
# Separated lists

A list in which one element separates pieces, such as the lines of a text or the fields of a line.
Cutting it at the separators loses nothing else: the pieces hold no separator, and with one
separator between neighbours they make up the list again.
-/

namespace SignatureCache

namespace Separated

variable {α : Type} [BEq α]

/-- What one more element in front does to the pieces of a list. -/
def addFront (separator x : α) (pieces : List (List α)) : List (List α) :=
  if x == separator then [] :: pieces
  else
    match pieces with
    | piece :: rest => (x :: piece) :: rest
    | [] => [[x]]

/-- Cuts a list at every separator; there is always one piece more than separators. -/
def pieces (separator : α) (xs : List α) : List (List α) :=
  xs.foldr (addFront separator) [[]]

@[simp] theorem pieces_nil (separator : α) : pieces separator [] = [[]] := rfl

@[simp] theorem pieces_cons (separator x : α) (xs : List α) :
    pieces separator (x :: xs) = addFront separator x (pieces separator xs) := rfl

theorem addFront_ne_nil (separator x : α) (ps : List (List α)) : addFront separator x ps ≠ [] := by
  unfold addFront
  split
  · simp
  · split <;> simp

theorem pieces_ne_nil (separator : α) (xs : List α) : pieces separator xs ≠ [] := by
  cases xs with
  | nil => simp
  | cons x xs => exact addFront_ne_nil separator x _

end Separated

end SignatureCache
