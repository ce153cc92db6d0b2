/-!
# Machine words

Which integers fit the signed words that a cache keeps its numbers in.
-/

namespace SignatureCache

namespace Word

/-- The integer fits a signed word of 32 bits. -/
def fits32 (n : Int) : Bool :=
  decide (-0x80000000 ≤ n) && decide (n ≤ 0x7fffffff)

/-- The integer fits a signed word of 64 bits. -/
def fits64 (n : Int) : Bool :=
  decide (-0x8000000000000000 ≤ n) && decide (n ≤ 0x7fffffffffffffff)

theorem fits32_iff {n : Int} : fits32 n = true ↔ -0x80000000 ≤ n ∧ n ≤ 0x7fffffff := by
  simp only [fits32, Bool.and_eq_true, decide_eq_true_eq]

theorem fits64_iff {n : Int} :
    fits64 n = true ↔ -0x8000000000000000 ≤ n ∧ n ≤ 0x7fffffffffffffff := by
  simp only [fits64, Bool.and_eq_true, decide_eq_true_eq]

end Word

end SignatureCache
