import SignatureCache.Proofs.Cache.Sharpening
import SignatureCache.Proofs.DyadicInterval.KeyOrder
import SignatureCache.Source.Transcript

/-!
# Offsets stay in their words

The check of a request looks at the offsets under its own interval only. It is computed in words of
128 bits, which is enough for the few levels that it lets pass, and it accepts exactly the intervals
under which all offsets are in range. That carries over to whatever else a query adds, on the way
from the root and around it, so every offset of a cache is in range, at most a quarter of what its
word holds. No half of a key or of the parent of a key then leaves the word, and none of the faults
that a query can end in is such an overflow, unless the source itself ends in one.
-/

namespace SignatureCache

open DyadicInterval

namespace Word

/-- The integer fits a signed word of 128 bits. -/
def fits128 (n : Int) : Bool :=
  decide (-2 ^ 127 ≤ n) && decide (n < 2 ^ 127)

theorem fits128_of_bounds {n : Int} (hge : -2 ^ 116 ≤ n) (hle : n ≤ 2 ^ 116) :
    fits128 n = true := by
  simp only [fits128, Bool.and_eq_true, decide_eq_true_eq]
  omega

/-- No bit is lost where the shifted number fits the word. -/
theorem toInt_shiftLeft_ofInt128 {k : Int} {n : Nat} (h : fits128 (k <<< n) = true) :
    (BitVec.ofInt 128 k <<< n).toInt = k <<< n := by
  simp only [fits128, Bool.and_eq_true, decide_eq_true_eq] at h
  have hmod : 0 ≤ k % ((2 ^ 128 : Nat) : Int) := Int.emod_nonneg _ (by norm_num)
  rw [BitVec.toInt_shiftLeft, BitVec.toNat_ofInt, Nat.shiftLeft_eq, Nat.cast_mul,
    Int.toNat_of_nonneg hmod, Int.emod_mul_bmod, Nat.cast_pow, Nat.cast_ofNat, ← Int.shiftLeft_eq,
    Int.bmod_eq_of_le]
  · omega
  · omega

/-- A word of 64 bits and its successor can be shifted by 52 places. -/
theorem shiftLeft_le {k : Int} {n : Nat} (hk : k ≤ 2 ^ 63) (hn : n ≤ 52) : k <<< n ≤ 2 ^ 115 := by
  have hpos : (0 : Int) ≤ 2 ^ n := by positivity
  have hpow : (2 : Int) ^ n ≤ 2 ^ 52 := pow_le_pow_right₀ (by norm_num) hn
  rw [Int.shiftLeft_eq]
  calc k * 2 ^ n ≤ 2 ^ 63 * 2 ^ n := mul_le_mul_of_nonneg_right hk hpos
    _ ≤ 2 ^ 63 * 2 ^ 52 := mul_le_mul_of_nonneg_left hpow (by norm_num)
    _ = 2 ^ 115 := by norm_num

theorem le_shiftLeft {k : Int} {n : Nat} (hk : -2 ^ 63 ≤ k) (hn : n ≤ 52) :
    -2 ^ 115 ≤ k <<< n := by
  have hneg : (-k) <<< n ≤ 2 ^ 115 := shiftLeft_le (by omega) hn
  rw [Int.shiftLeft_eq] at hneg ⊢
  rw [neg_mul] at hneg
  omega

end Word

/-! ### The check in words -/

/-- The check of the offsets as it is computed: the number of levels in a word of 64 bits, the ends
in words of 128, from which a shift drops what does not fit. -/
def offsetsFitInWords? (I : DyadicInterval) (resolution : Int) : Except Fault Bool :=
  let levels := max resolution I.power - I.power
  if !Word.fits64 levels then .error .overflow
  else if 52 < levels then .ok false
  else if !Word.fits128 (I.offset + 1) then .error .overflow
  else
    let first := (BitVec.ofInt 128 I.offset <<< levels.toNat).toInt
    let past := (BitVec.ofInt 128 (I.offset + 1) <<< levels.toNat).toInt
    if !Word.fits128 (past - 1) then .error .overflow
    else .ok (decide (-Dissection.offsetLimit ≤ first) && decide (past - 1 < Dissection.offsetLimit))

/-- Whatever the words of a request, the check computes what it should. -/
theorem offsetsFitInWords?_eq {I : DyadicInterval} {resolution : Int} (hI : I.InWords)
    (hr : Word.fits32 resolution = true) :
    offsetsFitInWords? I resolution = .ok (offsetsFit I resolution) := by
  obtain ⟨ho, hp⟩ := hI
  rw [Word.fits64_iff] at ho
  rw [Word.fits32_iff] at hp hr
  have hlevels : Word.fits64 (max resolution I.power - I.power) = true := by
    rw [Word.fits64_iff]
    omega
  rw [offsetsFitInWords?, offsetsFit, hlevels]
  simp only [Bool.not_true, Bool.false_eq_true, if_false]
  by_cases hdeep : 52 < max resolution I.power - I.power
  · rw [if_pos hdeep, if_pos hdeep]
  · have hn : (max resolution I.power - I.power).toNat ≤ 52 := by omega
    have hlow := Word.le_shiftLeft (show -2 ^ 63 ≤ I.offset by omega) hn
    have hhigh := Word.shiftLeft_le (show I.offset ≤ 2 ^ 63 by omega) hn
    have hlow' := Word.le_shiftLeft (show -2 ^ 63 ≤ I.offset + 1 by omega) hn
    have hhigh' := Word.shiftLeft_le (show I.offset + 1 ≤ 2 ^ 63 by omega) hn
    have hnext : Word.fits128 (I.offset + 1) = true :=
      Word.fits128_of_bounds (by omega) (by omega)
    rw [if_neg hdeep, if_neg hdeep, hnext,
      Word.toInt_shiftLeft_ofInt128 (Word.fits128_of_bounds (by omega) (by omega)),
      Word.toInt_shiftLeft_ofInt128 (Word.fits128_of_bounds (by omega) (by omega)),
      Word.fits128_of_bounds (by omega) (by omega)]
    rfl

/-- The check accepts exactly the intervals under which all offsets at the resolution are in
range. -/
theorem offsetsFit_iff {I : DyadicInterval} {resolution : Int} :
    offsetsFit I resolution = true ↔
      ∀ J : DyadicInterval, I.contains J = true → J.power = max resolution I.power →
        -Dissection.offsetLimit ≤ J.offset ∧ J.offset < Dissection.offsetLimit :=
  ⟨fun h _ hc hp => offset_of_offsetsFit h hc hp.le, offsetsFit_of_offsets⟩

/-! ### Halves -/

namespace DyadicInterval

/-- The offset of no half of an interval in range leaves its word. -/
theorem InRange.halves?_ne {limit : Int} {I : DyadicInterval} (h : InRange limit I)
    (J : DyadicInterval) :
    I.left? ≠ .error (.offsetOverflow J) ∧ I.right? ≠ .error (.offsetOverflow J) := by
  obtain ⟨hge, hlt, -⟩ := h
  rw [Dissection.offsetLimit] at hge hlt
  have hdouble : Word.fits64 (2 * I.offset) = true := by
    rw [Word.fits64_iff]
    omega
  rw [left?, right?, hdouble]
  simp only [Bool.not_true, Bool.false_eq_true, if_false]
  constructor
  · split <;> simp
  · split <;> simp

end DyadicInterval

variable {V : Type}

/-- If the failure is the overflow of an offset, it is one that the source ends in. -/
def Source.Excuses (source : Source V) (failure : Failure) : Prop :=
  ∀ J, failure = .fault (.offsetOverflow J) →
    (∃ nodes a b half, source.combine nodes a b half = .error (.offsetOverflow J)) ∨
      ∃ nodes values, source.combineAll nodes values = .error (.offsetOverflow J)

theorem Source.excuses_error (source : Source V) (error : Error) :
    source.Excuses (.error error) := by
  intro J hJ
  cases hJ

namespace Work

variable {source : Source V} {policy : Policy} {I : DyadicInterval} {resolution limit : Int}
  {s s' : Store V} {failure : Failure}

/-- Where all keys are in range, their halves are not to blame for the overflow of an offset. -/
theorem Blamed.excuses (hb : Blamed source I s failure) (h : s.Steady limit) :
    source.Excuses failure := by
  intro J hJ
  cases hb with
  | fresh => cases hJ
  | split => cases hJ
  | combine hc =>
    cases hJ
    exact .inl ⟨_, _, _, _, hc⟩
  | @parent root fault _ _ _ hp =>
    cases hJ
    rcases parent?_cases root with hp' | hp'
    · cases hp.symm.trans hp'
    · cases hp.symm.trans hp'
  | half hkey hl =>
    cases hJ
    exact absurd hl ((h.inRange hkey).halves?_ne J).1

/-! ### The phases of a query -/

section Accepted

variable (hallow : policy.allowInterval I resolution = .ok ())

include hallow

/-- Work that fails after some moves for a reason that is known does not fail for an offset. -/
theorem Ends.excuses {α : Type} {x : Work V α} {Q : α → Store V → Prop}
    (h : s.Steady policy.maxResolution)
    (hx : Ends x s' Q fun failure s'' => Moves source I resolution s s'' ∧
      Blamed source I s'' failure) :
    Ends x s' Q fun failure _ => source.Excuses failure := by
  apply hx.mono (fun _ _ => id)
  rintro failure s'' ⟨hm, hb⟩
  exact hb.excuses (hm.steady hallow h)

theorem sharpen_excuses (h : s.Steady policy.maxResolution) (hI : s.tree.contains I = true) :
    Ends (sharpen policy source I resolution) s (fun _ _ => True)
      fun failure _ => source.Excuses failure := by
  obtain ⟨root, hroot⟩ := h.full.exists_fullUnder hI
  obtain ⟨levels, hdeep⟩ := exists_deep s.tree resolution I
  rw [ends_congr (sharpen_run source hallow h hI hdeep)]
  have htour : Ends (tour policy source resolution levels I) s (fun _ _ => True)
      fun failure s' => Moves source I resolution s s' ∧ Blamed source I s' failure :=
    (tour_ends policy ⟨hroot, h.modest, hI, hdeep.desired_lt.le⟩ (contains_self I)).mono
      (fun _ _ _ => trivial) fun _ _ hend => ⟨hend.moves, hend.blamed⟩
  apply (Ends.excuses hallow h htour).bind
  rintro _ s₁ -
  rw [confirm, Ends, bind_of_ok (tree_run s₁)]
  cases (s₁.tree.accuracy? I).all (· < resolution) with
  | true =>
    intro J hJ
    cases hJ
  | false => trivial

theorem reach_excuses (h : s.Steady policy.maxResolution) :
    Ends (reach policy source I resolution) s (fun _ _ => True)
      fun failure _ => source.Excuses failure := by
  rcases h.full with hempty | ⟨root, hroot⟩
  · rw [ends_congr (reach_empty policy source I resolution hempty)]
    apply (Ends.excuses hallow h (plant_ends resolution hempty)).bind
    rintro _ s₁ ⟨hm, value, rfl⟩
    by_cases hlt : I.power < resolution
    · rw [if_pos hlt]
      exact sharpen_excuses hallow (hm.steady hallow h)
        (fullUnder_planted (I := I) hempty value).contains_root
    · rw [if_neg hlt]
      trivial
  · rw [ends_congr (reach_root policy source I resolution hroot)]
    by_cases side : SameSide root I
    · rw [grow_sameSide source side]
      apply (Ends.excuses hallow h (growToContain_ends resolution side hroot)).bind
      rintro top s₁ ⟨hm, hfull, hc⟩
      have h₁ := hm.steady hallow h
      apply (Ends.excuses hallow h₁ (descend_ends resolution hfull hc)).bind
      rintro _ s₂ ⟨hm, -, hI⟩
      exact sharpen_excuses hallow (hm.steady hallow h₁) hI
    · rw [grow_unreachable source side]
      exact source.excuses_error _

end Accepted

theorem dyadicValue_excuses (h : s.Steady policy.maxResolution) :
    Ends (dyadicValue policy source I resolution) s (fun _ _ => True)
      fun failure _ => source.Excuses failure := by
  have hstored : ∀ s₁ : Store V, Ends (stored I) s₁ (fun _ _ => True)
      fun failure _ => source.Excuses failure := by
    intro s₁
    rw [stored, Ends, bind_of_ok (searched_run s₁ I)]
    cases s₁.tree.find? I with
    | some node => trivial
    | none =>
      intro J hJ
      cases hJ
  cases hallow : policy.allowInterval I resolution with
  | error error =>
    rw [ends_of_error (dyadicValue_refused source s hallow)]
    exact source.excuses_error error
  | ok _ =>
    have hask : Move source I resolution s s.asked := .ask s
    have hasked := hask.steady hallow h
    cases found s I resolution with
    | absent hno =>
      rw [ends_congr (dyadicValue_absent source hallow hno)]
      exact (reach_excuses hallow hasked).bind fun _ s₁ _ => hstored s₁
    | accurate hnode hr =>
      rw [ends_of_ok (dyadicValue_hit source hallow hnode hr)]
      trivial
    | coarse hnode hlt =>
      rw [ends_congr (dyadicValue_cached source hallow hnode hlt)]
      exact (sharpen_excuses hallow hasked (Tree.contains_of_find? hnode)).bind
        fun _ s₁ _ => hstored s₁

end Work

namespace Cache

open Work

/-- In a steady store no query ends in the overflow of an offset. -/
theorem answer_excuses {cache : Cache V} (h : cache.store.Steady cache.policy.maxResolution)
    (source : Source V) (query : Query) (resolution : Int) {failure : Failure}
    (hfailure : (cache.answer source query resolution).1 = .error failure) :
    source.Excuses failure := by
  have hends : Ends (Work.answer cache.policy cache.dissection source query resolution)
      cache.store (fun _ _ => True) fun failure _ => source.Excuses failure := by
    cases query with
    | dyadic I => exact dyadicValue_excuses h
    | real I =>
      refine (realValue_ends (P := fun s => s.Steady cache.policy.maxResolution)
        (R := fun _ _ => True) (F := source.Excuses) ?_ source.excuses_error ?_ h).mono
          (fun _ _ _ => trivial) fun _ _ hend => hend.2
      · intro pieces _ J _ s hs
        exact ((dyadicValue_keeps cache.policy (fun _ hs => hs.full)
          (fun hallow _ _ hs hm => hm.steady hallow hs) hs).and (dyadicValue_excuses hs)).mono
            (fun _ _ hend => ⟨hend.1.1, trivial⟩) fun _ _ hend => hend
      · rintro nodes values _ hproduct J ⟨⟩
        exact .inr ⟨nodes, values, hproduct⟩
  cases hrun : Work.answer cache.policy cache.dissection source query resolution cache.store with
  | ok value s =>
    rw [answer_of_ok query hrun] at hfailure
    cases hfailure
  | error failure' s =>
    rw [ends_of_error hrun] at hends
    rw [answer_of_error query hrun] at hfailure
    cases hfailure
    exact hends

/-- The check of the offsets, as it is computed in words, overflows for no request, and it accepts
an interval exactly if everything under it at the resolution has an offset in range. After any
requests to an empty cache, answered or not, every key has an offset in range and a power that the
policy allows, so neither a half of a key nor one of its parent, which is the key or its neighbour,
has an offset that leaves its word; and whatever is asked for next, the answer is no such overflow
unless the source ended in it. -/
theorem offsets_after_requests (policy : Policy) (dissection : Dissection)
    (requests : List (Request V)) :
    (∀ (I : DyadicInterval) (resolution : Int), I.InWords → Word.fits32 resolution = true →
      offsetsFitInWords? I resolution = .ok (offsetsFit I resolution)) ∧
    (∀ (I : DyadicInterval) (resolution : Int), offsetsFit I resolution = true ↔
      ∀ J : DyadicInterval, I.contains J = true → J.power = max resolution I.power →
        -2 ^ 52 ≤ J.offset ∧ J.offset < 2 ^ 52) ∧
    let cache := ({ policy, dissection } : Cache V).after requests
    (∀ key, cache.store.tree.contains key = true →
      -2 ^ 52 ≤ key.offset ∧ key.offset < 2 ^ 52 ∧ key.power ≤ policy.maxResolution ∧
      ∀ I ∈ [key, key.parent], ∀ J, I.left? ≠ .error (.offsetOverflow J) ∧
        I.right? ≠ .error (.offsetOverflow J)) ∧
    ∀ source query resolution J,
      (cache.answer source query resolution).1 = .error (.fault (.offsetOverflow J)) →
      (∃ nodes a b half, source.combine nodes a b half = .error (.offsetOverflow J)) ∨
        ∃ nodes values, source.combineAll nodes values = .error (.offsetOverflow J) := by
  have h : (({ policy, dissection } : Cache V).after requests).store.Steady policy.maxResolution :=
    after_steady { policy, dissection } requests (steady_empty policy.maxResolution)
  refine ⟨fun _ _ => offsetsFitInWords?_eq, fun I resolution => offsetsFit_iff, ?_, ?_⟩
  · intro key hkey
    have hin := h.inRange hkey
    refine ⟨hin.offset_ge, hin.offset_lt, hin.power_le, ?_⟩
    intro I hI
    rcases List.mem_pair.1 hI with rfl | rfl
    · exact hin.halves?_ne
    · exact (hin.of_contains (parent_contains key)).halves?_ne
  · intro source query resolution J hfailure
    refine answer_excuses ?_ source query resolution hfailure J rfl
    rw [after_policy]
    exact h

/-- The range is not symmetric: it has its least offset, but not the greatest. An interval at the
lower end passes the check also at the greatest number of levels, and the root grows around it. -/
theorem offsets_at_lower_end :
    let T : Transcript := ⟨"v", [], false, some []⟩
    let lowest : DyadicInterval := ⟨-2 ^ 52, 0⟩
    let cache := ({} : Cache String).after
      [⟨T.source, .dyadic lowest, 0⟩, ⟨T.source, .dyadic lowest.sibling, 0⟩]
    offsetsFitInWords? lowest 0 = .ok true ∧ offsetsFitInWords? ⟨2 ^ 52, 0⟩ 0 = .ok false ∧
      offsetsFitInWords? ⟨-1, -52⟩ 0 = .ok true ∧ offsetsFitInWords? ⟨-1, -53⟩ 0 = .ok false ∧
      cache.store.tree.keys = [⟨-2 ^ 51, -1⟩, ⟨-2 ^ 52, 0⟩, ⟨-2 ^ 52 + 1, 0⟩] ∧
      ∀ I J, (cache.answer T.source (.dyadic I) 0).1 ≠ .error (.fault (.offsetOverflow J)) := by
  intro T lowest cache
  obtain ⟨hcheck, -, -, hanswers⟩ := offsets_after_requests {} Dissection.onGrid
    [⟨T.source, .dyadic lowest, 0⟩, ⟨T.source, .dyadic lowest.sibling, 0⟩]
  refine ⟨(hcheck _ 0 ⟨by decide, by decide⟩ (by decide)).trans (by decide),
    (hcheck _ 0 ⟨by decide, by decide⟩ (by decide)).trans (by decide),
    (hcheck _ 0 ⟨by decide, by decide⟩ (by decide)).trans (by decide),
    (hcheck _ 0 ⟨by decide, by decide⟩ (by decide)).trans (by decide), ?_, ?_⟩
  · simp only [cache, lowest]
    cbv
  · intro I J hfailure
    rcases hanswers T.source (.dyadic I) 0 J hfailure with
      ⟨nodes, a, b, half, hc⟩ | ⟨nodes, values, hc⟩
    · obtain ⟨value, hvalue⟩ := Transcript.combines T nodes a b half
      cases hc.symm.trans hvalue
    · obtain ⟨value, hvalue⟩ := Transcript.combinesAll T nodes values
      cases hc.symm.trans hvalue

end Cache

end SignatureCache
