import Mathlib.Data.Nat.Find
import SignatureCache.Proofs.DyadicInterval.Nesting

/-!
# Smallest common ancestors

Intervals on one side of zero have a common ancestor, as taking parents brings an interval ever
closer to containing a given one. The intervals around an interval form a chain, so among the common
ancestors there is a smallest, for two intervals and then for the intervals of any list.
-/

namespace SignatureCache

namespace DyadicInterval

variable {I J : DyadicInterval}

/-- The smallest interval that contains all intervals of a list. -/
structure Spans (R : DyadicInterval) (intervals : List DyadicInterval) : Prop where
  contains : ∀ I ∈ intervals, R.contains I = true
  least : ∀ K : DyadicInterval, (∀ I ∈ intervals, K.contains I = true) → K.contains R = true

theorem exists_ancestor_contains (side : SameSide I J) : ∃ n, (I.ancestor n).contains J = true := by
  induction hd : distance I J using Nat.strong_induction_on generalizing I with
  | _ d ih =>
    cases hc : I.contains J with
    | true => exact ⟨0, by rwa [ancestor_zero]⟩
    | false =>
      obtain ⟨n, hn⟩ := ih _ (hd ▸ distance_parent_lt side hc) side.parent rfl
      exact ⟨n + 1, by rwa [← ancestor_parent]⟩

theorem ancestor_contains_ancestor (I : DyadicInterval) {m n : Nat} (h : m ≤ n) :
    (I.ancestor n).contains (I.ancestor m) = true := by
  obtain ⟨d, rfl⟩ := Nat.exists_eq_add_of_le h
  rw [ancestor_add]
  exact contains_ancestor _ d

/-- Going up from one of two intervals on one side of zero, there is a first level at which the
other one is contained. -/
theorem exists_first_ancestor (side : SameSide I J) :
    ∃ n, (I.ancestor n).contains J = true ∧ ∀ m < n, (I.ancestor m).contains J = false := by
  have hex := exists_ancestor_contains side
  classical
  exact ⟨Nat.find hex, Nat.find_spec hex, fun m hm => Bool.eq_false_iff.2 (Nat.find_min hex hm)⟩

/-- The first ancestor that contains both intervals is the smallest interval that does. -/
theorem ancestor_least {n : Nat} (hfirst : ∀ m < n, (I.ancestor m).contains J = false)
    {K : DyadicInterval} (hI : K.contains I = true) (hJ : K.contains J = true) :
    K.contains (I.ancestor n) = true := by
  obtain ⟨m, rfl⟩ := contains_iff_ancestor.1 hI
  apply ancestor_contains_ancestor
  by_contra hlt
  simp [hfirst m (not_le.1 hlt)] at hJ

/-- Two intervals on one side of zero are contained in a smallest interval. -/
theorem exists_join (side : SameSide I J) :
    ∃ R : DyadicInterval, R.contains I = true ∧ R.contains J = true ∧
      ∀ K : DyadicInterval, K.contains I = true → K.contains J = true → K.contains R = true := by
  obtain ⟨n, hn, hfirst⟩ := exists_first_ancestor side
  exact ⟨I.ancestor n, contains_ancestor I n, hn, fun K => ancestor_least hfirst⟩

/-- Only intervals on one side of zero are contained in a common one. -/
theorem exists_contains_iff :
    (∃ K : DyadicInterval, K.contains I = true ∧ K.contains J = true) ↔ SameSide I J := by
  constructor
  · rintro ⟨K, hI, hJ⟩
    exact (sameSide_of_contains hI).symm.trans (sameSide_of_contains hJ)
  · intro side
    obtain ⟨R, hI, hJ, -⟩ := exists_join side
    exact ⟨R, hI, hJ⟩

theorem spans_ancestor {n : Nat} (hn : (I.ancestor n).contains J = true)
    (hfirst : ∀ m < n, (I.ancestor m).contains J = false) : (I.ancestor n).Spans [I, J] where
  contains := by
    intro K hK
    simp only [List.mem_cons, List.not_mem_nil, or_false] at hK
    rcases hK with rfl | rfl
    · exact contains_ancestor K n
    · exact hn
  least := by
    intro K hK
    exact ancestor_least hfirst (hK I List.mem_cons_self)
      (hK J (List.mem_cons_of_mem I List.mem_cons_self))

theorem Spans.cons {R T : DyadicInterval} {intervals : List DyadicInterval}
    (h : T.Spans intervals) (hI : R.contains I = true) (hT : R.contains T = true)
    (least : ∀ K : DyadicInterval, K.contains I = true → K.contains T = true →
      K.contains R = true) : R.Spans (I :: intervals) where
  contains := by
    intro J hJ
    rcases List.mem_cons.1 hJ with rfl | hJ
    · exact hI
    · exact contains_trans hT (h.contains J hJ)
  least := by
    intro K hK
    exact least K (hK I List.mem_cons_self)
      (h.least K fun J hJ => hK J (List.mem_cons_of_mem I hJ))

/-- Some intervals on one side of zero are contained in a smallest interval. -/
theorem exists_spans {intervals : List DyadicInterval} (hne : intervals ≠ [])
    (side : ∀ I ∈ intervals, ∀ J ∈ intervals, SameSide I J) :
    ∃ R : DyadicInterval, R.Spans intervals := by
  induction intervals with
  | nil => exact absurd rfl hne
  | cons I intervals ih =>
    cases intervals with
    | nil =>
      refine ⟨I, ?_, fun K hK => hK I List.mem_cons_self⟩
      intro J hJ
      rw [List.mem_singleton.1 hJ]
      exact contains_self I
    | cons J rest =>
      obtain ⟨T, hT⟩ := ih (List.cons_ne_nil J rest) fun A hA B hB =>
        side A (List.mem_cons_of_mem I hA) B (List.mem_cons_of_mem I hB)
      have hside : SameSide I T :=
        (side I List.mem_cons_self J (List.mem_cons_of_mem I List.mem_cons_self)).trans
          (sameSide_of_contains (hT.contains J List.mem_cons_self)).symm
      obtain ⟨R, hI, hRT, hleast⟩ := exists_join hside
      exact ⟨R, hT.cons hI hRT hleast⟩

end DyadicInterval

end SignatureCache
