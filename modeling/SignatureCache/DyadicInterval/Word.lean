import SignatureCache.Failure
import SignatureCache.DyadicInterval.Order
import SignatureCache.Number.Word

/-!
# Steps in machine words

A cache keeps offsets in signed words of 64 bits and powers in signed words of 32. The steps of this
file are the exact ones, refused where a number on the way leaves its word. The comparison tests
divisibility by a power of two with a mask of low bits, which is computed in a word too.
-/

namespace SignatureCache

namespace DyadicInterval

/-- The left half. -/
def left? (I : DyadicInterval) : Except Fault DyadicInterval :=
  if !Word.fits64 (2 * I.offset) then .error (.offsetOverflow I)
  else if !Word.fits32 (I.power + 1) then .error .overflow
  else .ok I.left

/-- The right half. Its offset is odd, so it fits whenever the even one below it does. -/
def right? (I : DyadicInterval) : Except Fault DyadicInterval :=
  if !Word.fits64 (2 * I.offset) then .error (.offsetOverflow I)
  else if !Word.fits32 (I.power + 1) then .error .overflow
  else .ok I.right

/-- The interval that `I` is a half of. -/
def parent? (I : DyadicInterval) : Except Fault DyadicInterval :=
  if Word.fits32 (I.power - 1) then .ok I.parent else .error .overflow

/-- The coarsest interval that starts where `I` ends and is no coarser than `floor`. -/
def following? (I : DyadicInterval) (floor : Int) : Except Fault DyadicInterval :=
  if Word.fits64 (I.offset + 1) then .ok (I.following floor) else .error .overflow

/-- The number of levels from one power down to a finer one. -/
def gap? (coarse fine : Int) : Except Fault Nat :=
  if Word.fits32 (fine - coarse) then .ok (fine - coarse).toNat else .error .overflow

/-- Whether `I` contains `J`. -/
def contains? (I J : DyadicInterval) : Except Fault Bool := do
  if J.power < I.power then return false
  let gap ← gap? I.power J.power
  return J.offset >>> min gap 63 = I.offset

/-- Whether `2^n` divides a word. The mask of the `n` low bits is the bit above them less one; at
`n = 63` that bit is the sign, the least word of all, and has no predecessor. -/
def lowBitsZero? (x : Int) (n : Nat) : Except Fault Bool :=
  if n = 0 then .ok true
  else if n ≤ 63 then
    let bit := Int.bmod (1 <<< n) 0x10000000000000000
    if Word.fits64 (bit - 1) then .ok (x % 1 <<< n = 0) else .error .overflow
  else .ok (x = 0)

/-- Compares the left end of a coarser interval with that of a finer one, `gap` levels below. -/
def compareCoarser? (coarse fine : Int) (gap : Nat) : Except Fault Ordering := do
  let floor := fine >>> min gap 63
  if coarse = floor then
    return if ← lowBitsZero? fine gap then .eq else .lt
  else
    return if coarse < floor then .lt else .gt

/-- Compares in key order. -/
def compare? (I J : DyadicInterval) : Except Fault Ordering := do
  let start ←
    if I.power ≤ J.power then
      compareCoarser? I.offset J.offset (← gap? I.power J.power)
    else
      Ordering.swap <$> compareCoarser? J.offset I.offset (← gap? J.power I.power)
  return start.then (compare I.power J.power)

/-! ### The only fault of a test -/

/-- Where a result is missing, a number has left its word. -/
def OnlyOverflows {α : Type} (result : Except Fault α) : Prop :=
  ∀ cause, result = .error cause → cause = .overflow

namespace OnlyOverflows

variable {α β : Type} {result result' : Except Fault α} {f : α → Except Fault β}

theorem ok (a : α) : OnlyOverflows (.ok a) :=
  fun _ h => nomatch h

theorem overflow : OnlyOverflows (.error .overflow : Except Fault α) := by
  rintro _ ⟨⟩
  rfl

theorem ite {c : Prop} [Decidable c] (h : OnlyOverflows result) (h' : OnlyOverflows result') :
    OnlyOverflows (if c then result else result') := by
  split
  · exact h
  · exact h'

theorem bind (h : OnlyOverflows result) (hf : ∀ a, OnlyOverflows (f a)) :
    OnlyOverflows (result >>= f) := by
  cases result with
  | ok a => exact hf a
  | error cause =>
    rintro _ ⟨⟩
    exact h cause rfl

theorem map (g : α → β) (h : OnlyOverflows result) : OnlyOverflows (g <$> result) := by
  cases result with
  | ok a => exact .ok (g a)
  | error cause =>
    rintro _ ⟨⟩
    exact h cause rfl

end OnlyOverflows

theorem onlyOverflows_gap? (coarse fine : Int) : OnlyOverflows (gap? coarse fine) :=
  .ite (.ok _) .overflow

theorem onlyOverflows_contains? (I J : DyadicInterval) : OnlyOverflows (I.contains? J) :=
  .ite (.ok _) (.bind (onlyOverflows_gap? _ _) fun _ => .ok _)

theorem onlyOverflows_lowBitsZero? (x : Int) (n : Nat) : OnlyOverflows (lowBitsZero? x n) :=
  .ite (.ok _) (.ite (.ite (.ok _) .overflow) (.ok _))

theorem onlyOverflows_compareCoarser? (coarse fine : Int) (gap : Nat) :
    OnlyOverflows (compareCoarser? coarse fine gap) :=
  .ite (.bind (onlyOverflows_lowBitsZero? _ _) fun _ => .ok _) (.ok _)

theorem onlyOverflows_compare? (I J : DyadicInterval) : OnlyOverflows (I.compare? J) := by
  unfold compare?
  split
  · refine .bind (onlyOverflows_gap? _ _) fun gap => ?_
    exact .bind (onlyOverflows_compareCoarser? _ _ gap) fun _ => .ok _
  · refine .bind (onlyOverflows_gap? _ _) fun gap => ?_
    exact .bind (.map _ (onlyOverflows_compareCoarser? _ _ gap)) fun _ => .ok _

end DyadicInterval

end SignatureCache
