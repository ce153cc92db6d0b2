import SignatureCache.Proofs.DyadicInterval.Span

/-!
# Tilings

Intervals that lie end to end fill the range from where the first one starts to where the last one
ends, and no two of them meet.
-/

namespace SignatureCache

namespace DyadicInterval

/-- The first interval starts at `a`, each next one where the one before it ends, and the last one
ends at `b`. -/
def Tiles (a : ℚ) : List DyadicInterval → ℚ → Prop
  | [], b => a = b
  | J :: rest, b => J.lower = a ∧ Tiles J.upper rest b

variable {a b x : ℚ} {pieces : List DyadicInterval} {J : DyadicInterval}

theorem Tiles.le (h : Tiles a pieces b) : a ≤ b := by
  induction pieces generalizing a with
  | nil => exact le_of_eq h
  | cons J rest ih =>
    obtain ⟨rfl, hrest⟩ := h
    exact J.lower_lt_upper.le.trans (ih hrest)

theorem Tiles.between (h : Tiles a pieces b) (hJ : J ∈ pieces) : a ≤ J.lower ∧ J.upper ≤ b := by
  induction pieces generalizing a with
  | nil => cases hJ
  | cons I rest ih =>
    obtain ⟨rfl, hrest⟩ := h
    rcases List.mem_cons.1 hJ with rfl | hJ
    · exact ⟨le_rfl, hrest.le⟩
    · obtain ⟨hlow, hhigh⟩ := ih hrest hJ
      exact ⟨I.lower_lt_upper.le.trans hlow, hhigh⟩

/-- Every point between the ends lies in a piece. -/
theorem Tiles.exists_mem_range (h : Tiles a pieces b) (hlow : a ≤ x) (hhigh : x < b) :
    ∃ J ∈ pieces, x ∈ J.range := by
  induction pieces generalizing a with
  | nil =>
    rw [Tiles] at h
    exact absurd hhigh (not_lt.2 (h ▸ hlow))
  | cons I rest ih =>
    obtain ⟨rfl, hrest⟩ := h
    rcases lt_or_ge x I.upper with hx | hx
    · exact ⟨I, List.mem_cons_self, hlow, hx⟩
    · obtain ⟨J, hJ, hmem⟩ := ih hrest hx
      exact ⟨J, List.mem_cons_of_mem I hJ, hmem⟩

/-- No two intervals of a tiling meet. -/
theorem Tiles.pairwise_apart (h : Tiles a pieces b) : pieces.Pairwise Apart := by
  induction pieces generalizing a with
  | nil => exact List.Pairwise.nil
  | cons I rest ih =>
    obtain ⟨-, hrest⟩ := h
    exact List.pairwise_cons.2 ⟨fun J hJ => .inl (hrest.between hJ).1, ih hrest⟩

end DyadicInterval

end SignatureCache
