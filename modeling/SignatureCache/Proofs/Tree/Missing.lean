import SignatureCache.Proofs.DyadicInterval.Span
import SignatureCache.Proofs.Tree.Full

/-!
# What is missing under an interval

An interval that is coarser than a resolution and has no halves in the tree is missing its halves,
be it cached itself or not. The intervals under a given one that are missing theirs are listed
recursively, an interval before what lies under it and the left half before the right one. That is
their key order, so each is listed after its parent.
-/

namespace SignatureCache

namespace Tree

open DyadicInterval

variable {V : Type}

/-- The intervals under `key` that are coarser than the resolution and without a left half, down to
fewer than `levels` levels below it. -/
def missing (t : Tree V) (desired : Int) : Nat → DyadicInterval → List DyadicInterval
  | 0, _ => []
  | levels + 1, key =>
    if key.power < desired then
      (if t.contains key.left then [] else [key]) ++
        (missing t desired levels key.left ++ missing t desired levels key.right)
    else []

variable {t t' : Tree V} {root key J : DyadicInterval} {desired : Int} {levels : Nat}

theorem missing_succ (hp : key.power < desired) :
    t.missing desired (levels + 1) key = (if t.contains key.left then [] else [key]) ++
      (t.missing desired levels key.left ++ t.missing desired levels key.right) := by
  rw [missing, if_pos hp]

/-! ### Members -/

theorem of_mem_missing (h : J ∈ t.missing desired levels key) :
    key.contains J = true ∧ J.power < desired ∧ t.contains J.left = false := by
  induction levels generalizing key with
  | zero => simp [missing] at h
  | succ levels ih =>
    by_cases hp : key.power < desired
    · rw [missing_succ hp, List.mem_append, List.mem_append] at h
      rcases h with h | h | h
      · cases hl : t.contains key.left with
        | true => simp [hl] at h
        | false =>
          simp only [hl, Bool.false_eq_true, if_false, List.mem_singleton] at h
          rw [h]
          exact ⟨contains_self key, hp, hl⟩
      · obtain ⟨hc, hJ⟩ := ih h
        exact ⟨contains_trans (contains_left key) hc, hJ⟩
      · obtain ⟨hc, hJ⟩ := ih h
        exact ⟨contains_trans (contains_right key) hc, hJ⟩
    · simp [missing, hp] at h

theorem mem_missing (hlevels : desired ≤ key.power + levels) (hc : key.contains J = true)
    (hp : J.power < desired) (hl : t.contains J.left = false) :
    J ∈ t.missing desired levels key := by
  have hle := power_le_of_contains hc
  induction levels generalizing key with
  | zero => omega
  | succ levels ih =>
    rw [missing_succ (by omega), List.mem_append, List.mem_append]
    by_cases hne : J = key
    · left
      rw [← hne, hl]
      simp
    · right
      push_cast at hlevels
      rcases left_contains_or_right_contains hc hne with hcl | hcr
      · exact .inl (ih (by rw [left_power]; omega) hcl (power_le_of_contains hcl))
      · exact .inr (ih (by rw [right_power]; omega) hcr (power_le_of_contains hcr))

theorem mem_missing_iff (hlevels : desired ≤ key.power + levels) :
    J ∈ t.missing desired levels key ↔
      key.contains J = true ∧ J.power < desired ∧ t.contains J.left = false :=
  ⟨of_mem_missing, fun ⟨hc, hp, hl⟩ => mem_missing hlevels hc hp hl⟩

/-- The list only depends on what lies strictly under the interval. -/
theorem missing_congr (h : ∀ J, key.contains J = true → J ≠ key → t'.contains J = t.contains J) :
    t'.missing desired levels key = t.missing desired levels key := by
  induction levels generalizing key with
  | zero => rfl
  | succ levels ih =>
    have hunder : ∀ half : DyadicInterval, key.contains half = true → key.power < half.power →
        t'.missing desired levels half = t.missing desired levels half := by
      intro half hc hp
      apply ih
      intro J hJ _
      have hle := power_le_of_contains hJ
      exact h J (contains_trans hc hJ) (ne_of_power_ne (by omega))
    have hleft : t'.contains key.left = t.contains key.left :=
      h key.left (contains_left key) (ne_of_power_ne (by rw [left_power]; omega))
    rw [missing, missing, hleft, hunder key.left (contains_left key) (by rw [left_power]; omega),
      hunder key.right (contains_right key) (by rw [right_power]; omega)]

/-- No more levels are gone through than there are down to the resolution. -/
theorem missing_eq_of_le (hlevels : desired ≤ key.power + levels) :
    t.missing desired levels key = t.missing desired (desired - key.power).toNat key := by
  induction levels generalizing key with
  | zero =>
    have hzero : (desired - key.power).toNat = 0 := by omega
    rw [hzero]
  | succ levels ih =>
    by_cases hp : key.power < desired
    · have hsucc : (desired - key.power).toNat = (desired - (key.power + 1)).toNat + 1 := by omega
      push_cast at hlevels
      have hleft := @ih key.left (by rw [left_power]; omega)
      have hright := @ih key.right (by rw [right_power]; omega)
      rw [left_power] at hleft
      rw [right_power] at hright
      rw [hsucc, missing_succ hp, missing_succ hp, hleft, hright]
    · have hzero : (desired - key.power).toNat = 0 := by omega
      rw [hzero, missing, missing, if_neg hp]

/-! ### Order -/

theorem before_of_mem_missing {half : DyadicInterval} (hc : key.contains half = true)
    (hp : key.power < half.power) (hJ : J ∈ t.missing desired levels half) : Before key J := by
  have hJ' := (of_mem_missing hJ).1
  have hle := power_le_of_contains hJ'
  exact before_of_contains (contains_trans hc hJ') (ne_of_power_ne (by omega))

/-- The list is in key order. -/
theorem pairwise_missing : (t.missing desired levels key).Pairwise Before := by
  induction levels generalizing key with
  | zero => exact .nil
  | succ levels ih =>
    by_cases hp : key.power < desired
    · rw [missing_succ hp, List.pairwise_append, List.pairwise_append]
      refine ⟨?_, ⟨ih, ih, ?_⟩, ?_⟩
      · split
        · exact .nil
        · exact List.pairwise_singleton _ _
      · intro J hJ K hK
        apply before_of_upper_le (of_mem_missing hJ).1
        rw [upper_left]
        exact (contains_iff_range.1 (of_mem_missing hK).1).1
      · intro J hJ K hK
        have heq : J = key := by
          split at hJ
          · cases hJ
          · exact List.mem_singleton.1 hJ
        rw [heq]
        rcases List.mem_append.1 hK with hK | hK
        · exact before_of_mem_missing (contains_left key) (by rw [left_power]; omega) hK
        · exact before_of_mem_missing (contains_right key) (by rw [right_power]; omega) hK
    · simp [missing, hp]

/-! ### Schedules -/

/-- The intervals can be split one after the other: they are in key order and have no halves, and
each is cached or a half of one of them. -/
structure Schedule (t : Tree V) (splits : List DyadicInterval) : Prop where
  sorted : splits.Pairwise Before
  leaf : ∀ {J}, J ∈ splits → t.contains J.left = false
  cached : ∀ {J}, J ∈ splits → t.contains J = true ∨ J.parent ∈ splits

/-- Under a key no interval lacks just one half. -/
theorem FullUnder.not_contains_right_under (h : t.FullUnder root) (hkey : t.contains key = true)
    (hc : key.contains J = true) (hl : t.contains J.left = false) :
    t.contains J.right = false := by
  rw [Bool.eq_false_iff]
  intro hr
  have hJ := h.contains_of_between hr (contains_trans (h.root_contains hkey) hc)
    (contains_right J)
  rw [h.contains_left_of_right hJ hr] at hl
  cases hl

/-- What is missing under a key is a schedule. -/
theorem FullUnder.schedule_missing (h : t.FullUnder root) (hkey : t.contains key = true)
    (hlevels : desired ≤ key.power + levels) : t.Schedule (t.missing desired levels key) where
  sorted := pairwise_missing
  leaf hJ := (of_mem_missing hJ).2.2
  cached := by
    intro J hJ
    obtain ⟨hc, hp, -⟩ := of_mem_missing hJ
    by_cases hne : J = key
    · exact .inl (hne ▸ hkey)
    · have hparent := contains_parent_of_ne hc hne
      cases hl : t.contains J.parent.left with
      | false =>
        exact .inr (mem_missing hlevels hparent (by rw [parent_power]; omega) hl)
      | true =>
        -- Both halves of the parent are cached, and `J` is one of them.
        have hcached := h.contains_of_between hl
          (contains_trans (h.root_contains hkey) hparent) (contains_left J.parent)
        have hr := h.contains_right_of_left hcached hl
        left
        rcases eq_left_or_eq_right J with hJ' | hJ'
        · rwa [hJ']
        · rwa [hJ']

variable {rest : List DyadicInterval}

/-- The first interval of a schedule is cached. -/
theorem Schedule.contains_head (h : t.Schedule (J :: rest)) : t.contains J = true := by
  refine (h.cached List.mem_cons_self).resolve_right ?_
  intro hparent
  rcases List.mem_cons.1 hparent with heq | hmem
  · exact parent_ne J heq
  · exact not_before_of_contains (parent_contains J) (List.rel_of_pairwise_cons h.sorted hmem)

/-- Once the first interval has its halves, the others are left. -/
theorem Schedule.tail (h : t.Schedule (J :: rest))
    (hkeys : ∀ K, t'.contains K = true ↔ K = J.left ∨ K = J.right ∨ t.contains K = true) :
    t'.Schedule rest where
  sorted := h.sorted.of_cons
  leaf := by
    intro K hK
    rw [Bool.eq_false_iff]
    intro hl
    rcases (hkeys K.left).1 hl with heq | heq | hold
    · have hbefore := List.rel_of_pairwise_cons h.sorted hK
      rw [← parent_left K, heq, parent_left] at hbefore
      exact Before.irrefl J hbefore
    · exact left_ne_right K J heq
    · rw [h.leaf (List.mem_cons_of_mem J hK)] at hold
      cases hold
  cached := by
    intro K hK
    rcases h.cached (List.mem_cons_of_mem J hK) with hold | hparent
    · exact .inl ((hkeys K).2 (.inr (.inr hold)))
    · rcases List.mem_cons.1 hparent with heq | hmem
      · left
        rw [hkeys, ← heq]
        rcases eq_left_or_eq_right K with hK' | hK'
        · exact .inl hK'
        · exact .inr (.inl hK')
      · exact .inr hmem

end Tree

end SignatureCache
