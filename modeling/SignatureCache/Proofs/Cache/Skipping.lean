import Mathlib
import SignatureCache.Proofs.Cache.Sharpening
import SignatureCache.Proofs.Cache.Shelves
import SignatureCache.Source.Transcript

/-!
# Skipping is not observed

A walk that passes an accurate key in one step and one that goes through all keys under it leave the
same store: under a key that is accurate enough every leaf is, so nothing there is split. They could
only differ where a key under an accurate one cannot be halved in its words, and below the greatest
power of all none can be found there. This needs modest accuracies only, so it holds whatever the
sources refuse and however they fail to combine.
-/

namespace SignatureCache

open DyadicInterval SignatureCache.Tree

variable {V : Type}

namespace Work

variable {source : Source V} {P Q : Policy} {root top key I : DyadicInterval}
  {desired resolution limit : Int} {levels : Nat} {s s' : Store V} {node : Node V}

/-- A tour of an accurate key changes nothing, whether it enters the key or not. -/
theorem tour_accurate (P : Policy) (source : Source V) (levels : Nat) (h : s.Steady limit)
    (hlimit : limit < 0x7fffffff) (hroot : s.tree.FullUnder root) (hleft : key.left? = .ok key.left)
    (hnode : s.tree.find? key = some node) (hacc : desired ≤ node.accuracy) :
    tour P source desired levels key s = .ok () s := by
  induction levels generalizing key node with
  | zero => rfl
  | succ levels ih =>
    have hkey := contains_of_find? hnode
    cases hl : s.tree.contains key.left with
    | false => exact tour_passed source levels hleft hnode hacc (.inr hl)
    | true =>
      have hr := hroot.contains_right_of_left hkey hl
      obtain ⟨l, hfl⟩ := exists_find?_of_contains hl
      obtain ⟨r, hfr⟩ := exists_find?_of_contains hr
      have hmin := (h.modest key node hnode).inner hfl hfr
      have hll := (h.inRange hl).left?_eq_of_contains hlimit hleft (contains_left key)
      have hrl := (h.inRange hr).left?_eq_of_contains hlimit hleft (contains_right key)
      exact tour_unchanged hleft hkey hl (ih hll hfl (by omega)) (ih hrl hfr (by omega))

/-- Two policies tour a key alike. -/
theorem tour_congr (Q : Policy) (hlimit : P.maxResolution < 0x7fffffff)
    (hallow : P.allowInterval top desired = .ok ())
    (h : s.Steady P.maxResolution) (hready : Ready root key desired levels s)
    (hc : top.contains key = true) :
    tour P source desired levels key s = tour Q source desired levels key s := by
  induction levels generalizing key s with
  | zero => rfl
  | succ levels ih =>
    have halves : ∀ s₁, s₁.Steady P.maxResolution → Ready root key desired (levels + 1) s₁ →
        s₁.tree.contains key.left = true →
        tourHalves P source desired levels key s₁ = tourHalves Q source desired levels key s₁ := by
      intro s₁ hs₁ h₁ hl₁
      have hcl := contains_trans hc (contains_left key)
      rw [tourHalves, tourHalves, ← bind_congr_run (ih hs₁ (h₁.left hl₁) hcl)]
      apply bind_congr_ends (tour_ends P (h₁.left hl₁) hcl)
      intro _ s₂ hleft
      exact ih (hleft.moves.steady hallow hs₁) (hleft.ready_right h₁ hl₁)
        (contains_trans hc (contains_right key))
    obtain ⟨node, hnode⟩ := exists_find?_of_contains hready.mem
    rcases halves?_cases key with ⟨fault, hleft, -⟩ | ⟨hleft, -⟩
    · rw [tour_unfit P source desired levels hready.mem hleft,
        tour_unfit Q source desired levels hready.mem hleft]
    · by_cases hacc : desired ≤ node.accuracy
      · rw [tour_accurate P source _ h hlimit hready.full hleft hnode hacc,
          tour_accurate Q source _ h hlimit hready.full hleft hnode hacc]
      · have hlt := not_le.1 hacc
        cases hl : s.tree.contains key.left with
        | true =>
          rw [tour_entered source levels hleft hnode (.inl hlt) hl,
            tour_entered source levels hleft hnode (.inl hlt) hl]
          exact halves s h hready hl
        | false =>
          rw [tour_split P source levels hleft hnode hlt hl,
            tour_split Q source levels hleft hnode hlt hl]
          apply bind_congr_ends (splitLeaf_divides hready hnode hlt hl hc)
          intro _ s₁ hs₁
          exact halves s₁ (hs₁.moves.steady hallow h) (hs₁.ready hready) hs₁.contains_left

section Congruence

variable (hmax : Q.maxResolution = P.maxResolution) (hlimit : P.maxResolution < 0x7fffffff)

include hmax hlimit

theorem sharpen_congr (hallow : P.allowInterval I resolution = .ok ())
    (h : s.Steady P.maxResolution) (hI : s.tree.contains I = true) :
    sharpen P source I resolution s = sharpen Q source I resolution s := by
  obtain ⟨root, hroot⟩ := h.full.exists_fullUnder hI
  obtain ⟨levels, hdeep⟩ := exists_deep s.tree resolution I
  have hallow' : Q.allowInterval I resolution = .ok () := by
    rw [allowInterval_eq_ok_iff] at hallow ⊢
    rwa [hmax]
  rw [sharpen_run source hallow h hI hdeep, sharpen_run source hallow' (by rwa [hmax]) hI hdeep]
  exact bind_congr_run (tour_congr Q hlimit hallow h
    ⟨hroot, h.modest, hI, hdeep.desired_lt.le⟩ (contains_self I))

theorem reach_congr (hallow : P.allowInterval I resolution = .ok ())
    (h : s.Steady P.maxResolution) :
    reach P source I resolution s = reach Q source I resolution s := by
  have hsharpen : ∀ {s₁ : Store V}, Moves source I resolution s s₁ → s₁.tree.contains I = true →
      sharpen P source I resolution s₁ = sharpen Q source I resolution s₁ :=
    fun hm hI => sharpen_congr hmax hlimit hallow (hm.steady hallow h) hI
  rcases h.full with hempty | ⟨root, hroot⟩
  · rw [reach_empty P source I resolution hempty, reach_empty Q source I resolution hempty]
    apply bind_congr_ends (plant_ends resolution hempty)
    rintro _ s₁ ⟨hm, value, rfl⟩
    split
    · exact hsharpen hm (fullUnder_planted hempty value).contains_root
    · rfl
  · rw [reach_root P source I resolution hroot, reach_root Q source I resolution hroot]
    apply bind_congr_ends (grow_moves hroot)
    rintro top s₁ ⟨hm, hfull, hc⟩
    apply bind_congr_ends ((descend_ends resolution hfull hc).after hm)
    rintro _ s₂ ⟨hm, -, hI⟩
    exact hsharpen hm hI

theorem dyadicValue_congr (h : s.Steady P.maxResolution) :
    dyadicValue P source I resolution s = dyadicValue Q source I resolution s := by
  have hallow' : Q.allowInterval I resolution = P.allowInterval I resolution := by
    rw [allowInterval_eq, allowInterval_eq, hmax]
  cases hallow : P.allowInterval I resolution with
  | error error =>
    rw [dyadicValue_refused source s hallow, dyadicValue_refused source s (hallow'.trans hallow)]
  | ok _ =>
    have hasked : s.asked.Steady P.maxResolution := ⟨h.full, h.modest, h.inRange⟩
    rw [hallow] at hallow'
    cases found s I resolution with
    | absent hno =>
      rw [dyadicValue_absent source hallow hno, dyadicValue_absent source hallow' hno]
      exact bind_congr_run (reach_congr hmax hlimit hallow hasked)
    | accurate hnode hr =>
      rw [dyadicValue_hit source hallow hnode hr, dyadicValue_hit source hallow' hnode hr]
    | coarse hnode hlt =>
      rw [dyadicValue_cached source hallow hnode hlt, dyadicValue_cached source hallow' hnode hlt]
      exact bind_congr_run
        (sharpen_congr hmax hlimit hallow hasked (contains_of_find? hnode))

theorem answer_congr (dissection : Dissection) (source : Source V) (query : Query)
    (resolution : Int) (h : s.Steady P.maxResolution) :
    answer P dissection source query resolution s =
      answer Q dissection source query resolution s := by
  have hkeep : ∀ I s, s.Steady P.maxResolution → Ends (dyadicValue P source I resolution) s
      (fun _ s' => s'.Steady P.maxResolution) (fun _ s' => s'.Steady P.maxResolution) := by
    intro I s hs
    exact (dyadicValue_keeps P (fun _ hs => hs.full)
      (fun hallow _ _ hs hm => hm.steady hallow hs) hs).mono (fun _ _ hend => hend.1)
        (fun _ _ => id)
  cases query with
  | dyadic I => exact dyadicValue_congr hmax hlimit h
  | real I =>
    have hallow' : Q.allow resolution = P.allow resolution := by
      rw [Policy.allow, Policy.allow, hmax]
    change realValue P dissection source I resolution s =
      realValue Q dissection source I resolution s
    cases hempty : I.isEmpty with
    | true => rw [realValue_empty P _ _ _ s hempty, realValue_empty Q _ _ _ s hempty]
    | false =>
      cases hallow : P.allow resolution with
      | error error =>
        rw [realValue_refused dissection source s hempty hallow,
          realValue_refused dissection source s hempty (hallow'.trans hallow)]
      | ok _ =>
        have hallowQ := hallow'.trans hallow
        cases hpieces : dissection I resolution with
        | error error =>
          rw [realValue_undissected source s hempty hallow hpieces,
            realValue_undissected source s hempty hallowQ hpieces]
        | ok pieces =>
          rw [realValue_of_pieces source s hempty hallow hpieces,
            realValue_of_pieces source s hempty hallowQ hpieces]
          exact bind_congr_run (mapM_congr_run
            (fun piece _ _ hs => dyadicValue_congr hmax hlimit hs)
            (fun piece _ s hs => hkeep piece s hs) h)

end Congruence

end Work

namespace Cache

open Work

variable {τ : Type} [Shelf V τ]

/-- The answers to a sequence of requests, each with the store that the request leaves, with its tree
taken off the shelf. -/
def answers (cache : Cache V τ) : List (Request V) → List (Except Failure V × Store V)
  | [] => []
  | request :: requests =>
    let next := cache.answer request.source request.query request.resolution
    (next.1, next.2.store.plain) :: next.2.answers requests

/-- The answers on a shelf are those with the tree on its own, as long as none breaks off. -/
theorem answers_plain {cache : Cache V τ} {requests : List (Request V)}
    (h : cache.compares requests = true) : cache.answers requests = cache.plain.answers requests := by
  induction requests generalizing cache with
  | nil => rfl
  | cons request requests ih =>
    obtain ⟨hfirst, hrest⟩ := compares_cons.1 h
    rw [answers, answers, ih hrest, ← outcome_eq hfirst]
    rfl

/-- Caches that differ in whether they skip answer alike from one steady store on. -/
theorem answers_congr {P Q : Policy} {s : Store V} (hmax : Q.maxResolution = P.maxResolution)
    (hlimit : P.maxResolution < 0x7fffffff) (dissection : Dissection)
    (h : s.Steady P.maxResolution) (requests : List (Request V)) :
    ({ policy := P, dissection, store := s } : Cache V).answers requests =
      ({ policy := Q, dissection, store := s } : Cache V).answers requests := by
  induction requests generalizing s with
  | nil => rfl
  | cons request requests ih =>
    obtain ⟨source, query, resolution⟩ := request
    have hnext := answer_steady { policy := P, dissection, store := s }
      ⟨source, query, resolution⟩ h
    have hcongr := answer_congr hmax hlimit dissection source query resolution h
    cases hrun : Work.answer P dissection source query resolution s with
    | ok value s₁ =>
      simp only [answer, hrun] at hnext
      rw [hrun] at hcongr
      simp only [answers, answer, hrun, ← hcongr, ih hnext]
    | error failure s₁ =>
      simp only [answer, hrun] at hnext
      rw [hrun] at hcongr
      simp only [answers, answer, hrun, ← hcongr, ih hnext]

/-- Below the greatest power, two empty caches of which one skips what is accurate enough and the
other does not answer all requests alike, refused ones included, and their trees and counters are
equal after each, as long as no request to either breaks off for want of a comparison. -/
theorem answers_skipping_eq (policy : Policy) (dissection : Dissection)
    (hlimit : policy.maxResolution < 0x7fffffff) (requests : List (Request V))
    (skipping : ({ policy := { policy with skipAccurate := true }, dissection } :
      Cache V τ).compares requests = true)
    (entering : ({ policy := { policy with skipAccurate := false }, dissection } :
      Cache V τ).compares requests = true) :
    ({ policy := { policy with skipAccurate := true }, dissection } : Cache V τ).answers requests =
      ({ policy := { policy with skipAccurate := false }, dissection } : Cache V τ).answers
        requests := by
  rw [answers_plain skipping, answers_plain entering, plain_new, plain_new]
  exact answers_congr (P := { policy with skipAccurate := true })
    (Q := { policy with skipAccurate := false }) rfl hlimit dissection (steady_empty _) requests

/-- The second query meets an accurate key whose halves are there already, and the third one grows
the root; the fourth one is refused where the root would have to grow. -/
theorem answers_skipping_eq_after_growth :
    let T : Transcript := ⟨"v", [⟨1, -1⟩], true, some []⟩
    let requests : List (Request String) :=
      [⟨T.source, .dyadic ⟨0, 1⟩, 2⟩, ⟨T.source, .dyadic ⟨0, 0⟩, 2⟩, ⟨T.source, .dyadic ⟨0, -1⟩, 1⟩,
        ⟨T.source, .dyadic ⟨1, -1⟩, 0⟩]
    32 < 0x7fffffff ∧
      ({ policy := { maxResolution := 32, skipAccurate := true } } : IndexedCache String).answers
          requests =
        ({ policy := { maxResolution := 32, skipAccurate := false } } : IndexedCache String).answers
          requests :=
  ⟨by decide, answers_skipping_eq { maxResolution := 32 } Dissection.onGrid (by decide) _
    (by cbv) (by cbv)⟩

/-- At the greatest power a leaf has no halves in its words, so a walk that goes through an accurate
key meets a fault where a walk that skips it is done. -/
theorem answers_skipping_ne_at_greatest_power :
    let T : Transcript := ⟨"v", [], false, none⟩
    let requests : List (Request String) :=
      [⟨T.source, .dyadic ⟨0, 0x7fffffff⟩, 0x7fffffff⟩,
        ⟨T.source, .dyadic ⟨0, 0x7ffffffe⟩, 0x7fffffff⟩]
    ({ policy := { maxResolution := 0x7fffffff, skipAccurate := true } } :
        IndexedCache String).answers requests ≠
      ({ policy := { maxResolution := 0x7fffffff, skipAccurate := false } } :
        IndexedCache String).answers requests := by
  intro T requests heq
  have hskip : (({ policy := { maxResolution := 0x7fffffff, skipAccurate := true } } :
      IndexedCache String).answers requests).map (fun answer => answer.1.toBool) =
        [true, true] := by
    cbv
  have henter : (({ policy := { maxResolution := 0x7fffffff, skipAccurate := false } } :
      IndexedCache String).answers requests).map (fun answer => answer.1.toBool) =
        [true, false] := by
    cbv
  rw [heq, henter] at hskip
  cases hskip

end Cache

end SignatureCache
