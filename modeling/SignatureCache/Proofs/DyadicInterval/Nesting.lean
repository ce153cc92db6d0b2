import SignatureCache.DyadicInterval.Ancestry

/-!
# Nesting

An interval contains exactly the intervals that it is an ancestor of, so nesting is a partial order
and the intervals around a given one form a chain. `contains_iff_ancestor` is the bridge from the
test that shifts offsets to the ancestors; everything else is read off it, one level at a time.
-/

namespace SignatureCache

namespace DyadicInterval

/-! ### Ancestors -/

@[simp] theorem ancestor_zero (I : DyadicInterval) : I.ancestor 0 = I := by
  ext <;> simp [ancestor]

theorem ancestor_succ (I : DyadicInterval) (n : Nat) :
    I.ancestor (n + 1) = (I.ancestor n).parent := by
  ext
  · exact shiftRight_succ I.offset n
  · simp only [ancestor, parent_power]
    omega

theorem ancestor_add (I : DyadicInterval) (m n : Nat) :
    I.ancestor (m + n) = (I.ancestor m).ancestor n := by
  induction n with
  | zero => simp
  | succ n ih => rw [← Nat.add_assoc, ancestor_succ, ancestor_succ, ih]

theorem ancestor_parent (I : DyadicInterval) (n : Nat) :
    I.parent.ancestor n = I.ancestor (n + 1) := by
  rw [Nat.add_comm, ancestor_add, ancestor_succ, ancestor_zero]

@[simp] theorem ancestor_power (I : DyadicInterval) (n : Nat) :
    (I.ancestor n).power = I.power - n := rfl

theorem ancestor_eq_of_contains {I J : DyadicInterval} (h : I.contains J = true) :
    J.ancestor (J.power - I.power).toNat = I := by
  obtain ⟨hp, ho⟩ := (contains_iff I J).1 h
  ext
  · exact ho
  · rw [ancestor_power]
    omega

theorem contains_iff_ancestor {I J : DyadicInterval} :
    I.contains J = true ↔ ∃ n, J.ancestor n = I := by
  constructor
  · exact fun h => ⟨_, ancestor_eq_of_contains h⟩
  · rw [contains_iff]
    rintro ⟨n, rfl⟩
    have hn : (J.power - (J.ancestor n).power).toNat = n := by
      rw [ancestor_power]
      omega
    refine ⟨?_, ?_⟩
    · rw [ancestor_power]
      omega
    · rw [hn]
      rfl

/-! ### A partial order -/

theorem contains_ancestor (J : DyadicInterval) (n : Nat) : (J.ancestor n).contains J = true :=
  contains_iff_ancestor.2 ⟨n, rfl⟩

theorem power_le_of_contains {I J : DyadicInterval} (h : I.contains J = true) :
    I.power ≤ J.power :=
  ((contains_iff I J).1 h).1

theorem contains_trans {I J K : DyadicInterval} (h : I.contains J = true)
    (h' : J.contains K = true) : I.contains K = true := by
  obtain ⟨m, rfl⟩ := contains_iff_ancestor.1 h
  obtain ⟨n, rfl⟩ := contains_iff_ancestor.1 h'
  rw [← ancestor_add]
  exact contains_ancestor K (n + m)

theorem eq_of_contains_of_power_le {I J : DyadicInterval} (h : I.contains J = true)
    (hp : J.power ≤ I.power) : J = I := by
  obtain ⟨n, rfl⟩ := contains_iff_ancestor.1 h
  rw [ancestor_power] at hp
  obtain rfl : n = 0 := by omega
  simp

/-- The intervals around one interval form a chain. -/
theorem contains_or_contains {I J K : DyadicInterval} (hI : I.contains K = true)
    (hJ : J.contains K = true) : I.contains J = true ∨ J.contains I = true := by
  obtain ⟨m, rfl⟩ := contains_iff_ancestor.1 hI
  obtain ⟨n, rfl⟩ := contains_iff_ancestor.1 hJ
  rcases Nat.le_total m n with h | h
  · right
    obtain ⟨d, rfl⟩ := Nat.exists_eq_add_of_le h
    rw [ancestor_add]
    exact contains_ancestor _ d
  · left
    obtain ⟨d, rfl⟩ := Nat.exists_eq_add_of_le h
    rw [ancestor_add]
    exact contains_ancestor _ d

theorem sameSide_of_contains {I J : DyadicInterval} (h : I.contains J = true) : SameSide I J := by
  obtain ⟨n, rfl⟩ := contains_iff_ancestor.1 h
  exact shiftRight_neg_iff J.offset n

/-! ### Parents and halves -/

theorem parent_contains (I : DyadicInterval) : I.parent.contains I = true := by
  have h := contains_ancestor I 1
  rwa [ancestor_succ, ancestor_zero] at h

theorem contains_left (I : DyadicInterval) : I.contains I.left = true := by
  simpa using parent_contains I.left

theorem contains_right (I : DyadicInterval) : I.contains I.right = true := by
  simpa using parent_contains I.right

theorem contains_parent_of_ne {I J : DyadicInterval} (h : I.contains J = true) (hne : J ≠ I) :
    I.contains J.parent = true := by
  obtain ⟨n, rfl⟩ := contains_iff_ancestor.1 h
  cases n with
  | zero => exact absurd (ancestor_zero J).symm hne
  | succ n =>
    rw [← ancestor_parent]
    exact contains_ancestor J.parent n

/-- What contains the left half of an interval, and is not that half, contains the interval. -/
theorem not_contains_left {I J : DyadicInterval} (hc : J.contains I = false) (hne : J ≠ I.left) :
    J.contains I.left = false := by
  rw [Bool.eq_false_iff]
  intro hleft
  have hparent := contains_parent_of_ne hleft hne.symm
  rw [parent_left, hc] at hparent
  cases hparent

theorem not_contains_right {I J : DyadicInterval} (hc : J.contains I = false) (hne : J ≠ I.right) :
    J.contains I.right = false := by
  rw [Bool.eq_false_iff]
  intro hright
  have hparent := contains_parent_of_ne hright hne.symm
  rw [parent_right, hc] at hparent
  cases hparent

theorem eq_left_of_half {I : DyadicInterval} (h : I.half = .left) : I = I.parent.left := by
  rw [half_eq_left_iff] at h
  ext
  · rw [left_offset, parent_offset]
    omega
  · simp

theorem eq_right_of_half {I : DyadicInterval} (h : I.half = .right) : I = I.parent.right := by
  rw [half_eq_right_iff] at h
  ext
  · rw [right_offset, parent_offset]
    omega
  · simp

theorem eq_left_or_eq_right (I : DyadicInterval) : I = I.parent.left ∨ I = I.parent.right := by
  cases h : I.half with
  | left => exact .inl (eq_left_of_half h)
  | right => exact .inr (eq_right_of_half h)

/-- What is nested in an interval, and is not all of it, lies in one of its halves. -/
theorem left_contains_or_right_contains {I J : DyadicInterval} (h : I.contains J = true)
    (hne : J ≠ I) : I.left.contains J = true ∨ I.right.contains J = true := by
  obtain ⟨n, rfl⟩ := contains_iff_ancestor.1 h
  cases n with
  | zero => exact absurd (ancestor_zero J).symm hne
  | succ n =>
    rw [ancestor_succ]
    rcases eq_left_or_eq_right (J.ancestor n) with hA | hA
    · exact .inl (hA ▸ contains_ancestor J n)
    · exact .inr (hA ▸ contains_ancestor J n)

theorem left_ne_right (I J : DyadicInterval) : I.left ≠ J.right := by
  intro h
  have hh := half_left I
  rw [h, half_right] at hh
  cases hh

theorem ne_of_power_ne {I J : DyadicInterval} (h : I.power ≠ J.power) : I ≠ J := by
  rintro rfl
  exact h rfl

theorem ne_ancestor_succ (I : DyadicInterval) (n : Nat) : I ≠ I.ancestor (n + 1) := by
  apply ne_of_power_ne
  rw [ancestor_power]
  omega

/-! ### Siblings -/

@[simp] theorem sibling_left (I : DyadicInterval) : I.left.sibling = I.right := by
  unfold sibling
  rw [half_left]
  rfl

@[simp] theorem sibling_right (I : DyadicInterval) : I.right.sibling = I.left := by
  unfold sibling
  rw [half_right]
  ext <;> simp

/-- An interval with its sibling, told by its half: the pair is that of the parent's halves. -/
theorem sibling_cases {P : DyadicInterval → DyadicInterval → Prop} (I : DyadicInterval)
    (left : P I.parent.left I.parent.right) (right : P I.parent.right I.parent.left) :
    P I I.sibling := by
  rcases eq_left_or_eq_right I with h | h
  · rw [h, sibling_left]
    exact left
  · rw [h, sibling_right]
    exact right

@[simp] theorem sibling_sibling (I : DyadicInterval) : I.sibling.sibling = I := by
  rcases eq_left_or_eq_right I with h | h
  · rw [h, sibling_left, sibling_right]
  · rw [h, sibling_right, sibling_left]

@[simp] theorem parent_sibling (I : DyadicInterval) : I.sibling.parent = I.parent := by
  apply sibling_cases I (P := fun _ J => J.parent = I.parent) <;> simp

@[simp] theorem sibling_power (I : DyadicInterval) : I.sibling.power = I.power := by
  apply sibling_cases I (P := fun _ J => J.power = I.power) <;> simp

theorem sibling_ne (I : DyadicInterval) : I.sibling ≠ I := by
  apply sibling_cases I (P := fun I J => J ≠ I)
  · exact (left_ne_right _ _).symm
  · exact left_ne_right _ _

theorem parent_contains_sibling (I : DyadicInterval) : I.parent.contains I.sibling = true := by
  simpa using parent_contains I.sibling

/-- Nothing is nested in both halves of an interval. -/
theorem not_sibling_contains {I J : DyadicInterval} (h : I.contains J = true) :
    I.sibling.contains J = false := by
  rw [Bool.eq_false_iff]
  intro h'
  rcases contains_or_contains h h' with hc | hc
  · exact sibling_ne I (eq_of_contains_of_power_le hc (by simp))
  · exact sibling_ne I (eq_of_contains_of_power_le hc (by simp)).symm

theorem parent_ne (I : DyadicInterval) : I.parent ≠ I := by
  apply ne_of_power_ne
  rw [parent_power]
  omega

theorem parent_ne_sibling (I : DyadicInterval) : I.parent ≠ I.sibling := by
  apply ne_of_power_ne
  rw [parent_power, sibling_power]
  omega

theorem not_contains_parent (I : DyadicInterval) : I.contains I.parent = false := by
  rw [Bool.eq_false_iff]
  intro h
  have := power_le_of_contains h
  rw [parent_power] at this
  omega

end DyadicInterval

end SignatureCache
