import SignatureCache.DyadicInterval.Word

/-!
# Steps that fit

When the steps in machine words are the exact ones.
-/

namespace SignatureCache

namespace DyadicInterval

/-- Both halves fit their words, or both are refused for one reason. -/
theorem halves?_cases (I : DyadicInterval) :
    (∃ fault, I.left? = .error fault ∧ I.right? = .error fault) ∨
      (I.left? = .ok I.left ∧ I.right? = .ok I.right) := by
  unfold left? right?
  split
  · exact .inl ⟨_, rfl, rfl⟩
  · split
    · exact .inl ⟨_, rfl, rfl⟩
    · exact .inr ⟨rfl, rfl⟩

theorem parent?_cases (I : DyadicInterval) :
    I.parent? = .error .overflow ∨ I.parent? = .ok I.parent := by
  unfold parent?
  split
  · exact .inr rfl
  · exact .inl rfl

end DyadicInterval

end SignatureCache
