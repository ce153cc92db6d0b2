/-!
# Where a sorted array stops satisfying a test

`partitionPoint xs p` finds by bisection the first index at which `p` fails, for an array whose
elements satisfy `p` up to some index and not from there on. It reads logarithmically many elements
and never one out of range; on any other array it still answers an index up to the size.
-/

namespace SignatureCache

variable {α : Type}

/-- Bisection between `lo`, before which all elements pass, and `hi`, from which on none does. -/
def partitionBetween (xs : Array α) (p : α → Bool) (lo hi : Nat) (h : hi ≤ xs.size) : Nat :=
  if hlt : lo < hi then
    let mid := (lo + hi) / 2
    have hmid : mid < xs.size := by omega
    if p xs[mid] then partitionBetween xs p (mid + 1) hi h
    else partitionBetween xs p lo mid (by omega)
  else lo
termination_by hi - lo

/-- The first index at which the test fails, or the size. -/
def partitionPoint (xs : Array α) (p : α → Bool) : Nat :=
  partitionBetween xs p 0 xs.size (Nat.le_refl _)

/-- The answer lies between the bounds. -/
theorem partitionBetween_mem (xs : Array α) (p : α → Bool) (lo hi : Nat) (h : hi ≤ xs.size)
    (hle : lo ≤ hi) :
    lo ≤ partitionBetween xs p lo hi h ∧ partitionBetween xs p lo hi h ≤ hi := by
  fun_induction partitionBetween xs p lo hi h with
  | case1 lo hi h hlt mid hmid hp ih =>
    have := ih (by omega)
    omega
  | case2 lo hi h hlt mid hmid hp ih =>
    have := ih (by omega)
    omega
  | case3 lo hi h hlt => omega

theorem partitionPoint_le_size (xs : Array α) (p : α → Bool) : partitionPoint xs p ≤ xs.size :=
  (partitionBetween_mem xs p 0 xs.size (Nat.le_refl _) (Nat.zero_le _)).2

end SignatureCache
