import SignatureCache.Proofs.Cache.Skipping
import SignatureCache.Proofs.Cache.Steps
import SignatureCache.Proofs.Tree.Missing
import SignatureCache.Source.Transcript

/-!
# What the walk splits

The walk decides at each key anew, by accuracies that its own splits raise, and the tree grows under
its cursor. Still all that it splits is settled when it begins: the intervals under its top that are
missing their halves down to the resolution, in key order. Where accuracies are exact, the walk does
nothing but split these, one after the other. So it stops only at a split that is refused, and all
splits before that one have been done, each with its whole propagation.
-/

namespace SignatureCache

open DyadicInterval SignatureCache.Tree

variable {V : Type}

/-- A source refuses to split just the intervals of a set. -/
def Source.RefusesSplits (source : Source V) (refused : Set DyadicInterval) : Prop :=
  ∀ nodes value J, (∃ error, source.split nodes value J.left J.right = .error error) ↔ J ∈ refused

theorem Transcript.refusesSplits (T : Transcript) {halves : List DyadicInterval}
    (h : T.refusedHalves = some halves) :
    T.source.RefusesSplits {J | J.left ∈ halves ∨ J.right ∈ halves} := by
  intro nodes value J
  simp only [Transcript.source, h, Set.mem_ofPred_eq]
  split_ifs <;> simp_all

namespace Work

variable {source : Source V} {policy : Policy} {root top key leaf J : DyadicInterval}
  {desired limit : Int} {levels : Nat} {splits later rest : List DyadicInterval}
  {s s₁ s' : Store V} {node : Node V}

/-! ### Splits -/

/-- What it comes to that the intervals of a list, all under `top`, are split one after the other:
they get their halves, every gain is propagated as far as it reaches, and nothing beside `top`
changes. -/
structure Splits (source : Source V) (top : DyadicInterval) (splits : List DyadicInterval)
    (s s' : Store V) : Prop where
  trace : Trace source (splits.map Deed.split) s s'
  full : s'.tree.Full
  exact : s'.tree.Exact
  keys : ∀ K, s'.tree.contains K = true ↔
    s.tree.contains K = true ∨ ∃ J ∈ splits, K = J.left ∨ K = J.right
  beside : Beside top s s'

theorem Splits.refl (source : Source V) (top : DyadicInterval) (h : s.tree.Full)
    (hx : s.tree.Exact) : Splits source top [] s s where
  trace := .refl s
  full := h
  exact := hx
  keys := by simp
  beside := .refl top s

theorem Splits.trans (h : Splits source top splits s s₁) (h' : Splits source top later s₁ s') :
    Splits source top (splits ++ later) s s' where
  trace := by
    rw [List.map_append]
    exact h.trace.trans h'.trace
  full := h'.full
  exact := h'.exact
  keys := by
    intro K
    rw [h'.keys, h.keys]
    simp only [List.mem_append, or_and_right, exists_or, or_assoc]
  beside := h.beside.trans h'.beside

/-- A leaf is split, and the gain propagated, unless its source refuses the halves. -/
theorem splitLeaf_splits (combines : source.Combines) (h : s.tree.Full) (hx : s.tree.Exact)
    (hc : top.contains leaf = true) (hleft : leaf.left? = .ok leaf.left)
    (hnode : s.tree.find? leaf = some node) (hl : s.tree.contains leaf.left = false)
    {values : V × V}
    (hv : source.split s.tree.size node.value leaf.left leaf.right = .ok values) :
    ∃ s', splitLeaf source leaf s = .ok () s' ∧ Splits source top [leaf] s s' := by
  obtain ⟨leftValue, rightValue⟩ := values
  have hleaf := contains_of_find? hnode
  obtain ⟨root, hroot⟩ := h.exists_fullUnder hleaf
  obtain ⟨last, s', hrun, hfull, hexact, -⟩ :=
    propagate_climbs (s := s.halved leaf leftValue rightValue) combines
      (hroot.halved hleaf hl leftValue rightValue) (hx.rising_halved hroot hleaf hl)
      (contains_halved.2 (.inl rfl))
  have hsplit := splitLeaf_run source hroot hnode hl
  simp only [hleft, hv] at hsplit
  have hbeside := splitLeaf_beside source hroot hnode hl
  rw [ends_of_ok (hsplit.trans hrun)] at hbeside
  have hkeys := (fullUnder_split source hroot hleaf hl leftValue rightValue).2
  have hdoes : Does source (.split leaf) s _ := .split hnode hl hv
  rw [final_of_ok hrun] at hkeys hdoes
  refine ⟨s', hsplit.trans hrun, .tail (.refl s) hdoes, .inr ⟨root, hfull⟩, hexact, ?_,
    hbeside.of_contains hc⟩
  intro K
  rw [hkeys, contains_halved]
  simp only [List.mem_singleton, exists_eq_left]
  tauto

/-- A leaf is not split where its source refuses the halves. -/
theorem splitLeaf_error (h : s.tree.Full) (hleft : leaf.left? = .ok leaf.left)
    (hnode : s.tree.find? leaf = some node) (hl : s.tree.contains leaf.left = false) {error : Error}
    (hv : source.split s.tree.size node.value leaf.left leaf.right = .error error) :
    splitLeaf source leaf s = .error (.error error) s := by
  obtain ⟨root, hroot⟩ := h.exists_fullUnder (contains_of_find? hnode)
  have hsplit := splitLeaf_run source hroot hnode hl
  simpa only [hleft, hv] using hsplit

/-! ### Schedules -/

variable {refused : Set DyadicInterval}

/-- As far as a source refuses nothing, a schedule is carried out from its beginning on. -/
theorem run_schedule (combines : source.Combines) (refuses : source.RefusesSplits refused)
    (h : s.tree.Full) (hx : s.tree.Exact) (hs : s.tree.Schedule (splits ++ rest))
    (under : ∀ J ∈ splits, top.contains J = true) (fits : ∀ J ∈ splits, J.left? = .ok J.left)
    (willing : ∀ J ∈ splits, J ∉ refused) :
    ∃ s', forM splits (splitLeaf source) s = .ok () s' ∧ Splits source top splits s s' ∧
      s'.tree.Schedule rest := by
  induction splits generalizing s with
  | nil => exact ⟨s, rfl, .refl source top h hx, hs⟩
  | cons J splits ih =>
    obtain ⟨node, hnode⟩ := exists_find?_of_contains hs.contains_head
    have hl := hs.leaf List.mem_cons_self
    have hno := mt (refuses s.tree.size node.value J).1 (willing J List.mem_cons_self)
    obtain ⟨values, hv⟩ : ∃ values,
        source.split s.tree.size node.value J.left J.right = .ok values := by
      cases hv : source.split s.tree.size node.value J.left J.right with
      | ok values => exact ⟨values, rfl⟩
      | error error => exact absurd ⟨error, hv⟩ hno
    obtain ⟨s₁, hrun, hfirst⟩ := splitLeaf_splits combines h hx (under J List.mem_cons_self)
      (fits J List.mem_cons_self) hnode hl hv
    have hs₁ : s₁.tree.Schedule (splits ++ rest) := by
      apply Schedule.tail hs
      intro K
      rw [hfirst.keys]
      simp only [List.mem_singleton, exists_eq_left]
      tauto
    obtain ⟨s', hlater, hsplits, hs'⟩ := ih hfirst.full hfirst.exact hs₁
      (fun K hK => under K (List.mem_cons_of_mem J hK))
      (fun K hK => fits K (List.mem_cons_of_mem J hK))
      (fun K hK => willing K (List.mem_cons_of_mem J hK))
    refine ⟨s', ?_, hfirst.trans hsplits, hs'⟩
    rw [List.forM_cons, bind_of_ok hrun, hlater]

/-- A schedule is given up at the first split that is refused. -/
theorem stop_schedule (combines : source.Combines) (refuses : source.RefusesSplits refused)
    (h : s.tree.Full) (hx : s.tree.Exact) (hs : s.tree.Schedule (splits ++ J :: rest))
    (under : ∀ K ∈ splits, top.contains K = true)
    (fits : ∀ K ∈ splits ++ J :: rest, K.left? = .ok K.left)
    (willing : ∀ K ∈ splits, K ∉ refused) (hJ : J ∈ refused) :
    ∃ s' node error, forM (splits ++ J :: rest) (splitLeaf source) s = .error (.error error) s' ∧
      Splits source top splits s s' ∧ s'.tree.find? J = some node ∧
      source.split s'.tree.size node.value J.left J.right = .error error := by
  obtain ⟨s', hrun, hsplits, hs'⟩ := run_schedule combines refuses h hx hs under
    (fun K hK => fits K (List.mem_append_left _ hK)) willing
  obtain ⟨node, hnode⟩ := exists_find?_of_contains hs'.contains_head
  obtain ⟨error, hv⟩ := (refuses s'.tree.size node.value J).2 hJ
  have hlast := splitLeaf_error hsplits.full
    (fits J (List.mem_append_right _ List.mem_cons_self)) hnode (hs'.leaf List.mem_cons_self) hv
  refine ⟨s', node, error, ?_, hsplits, hnode, hv⟩
  rw [List.forM_append, bind_of_ok hrun, List.forM_cons, bind_of_error hlast]

/-! ### The tour carries out a schedule -/

/-- The split of a key adds nothing strictly under its halves. -/
theorem Divided.missing_half {half : DyadicInterval}
    (h : Divided source root top key desired s s') (hp : half.power = key.power + 1) :
    s'.tree.missing desired levels half = s.tree.missing desired levels half := by
  apply missing_congr
  intro K hK hne
  have hlt : half.power < K.power := by
    by_contra hle
    exact hne (eq_of_contains_of_power_le hK (not_lt.1 hle))
  rw [Bool.eq_iff_iff, h.keys]
  constructor
  · rintro (rfl | rfl | hold)
    · simp [hp] at hlt
    · simp [hp] at hlt
    · exact hold
  · exact fun hold => .inr (.inr hold)

/-- The tour of the left half adds nothing under the right one. -/
theorem Toured.missing_right (h : Toured source root top key.left desired s s') :
    s'.tree.missing desired levels key.right = s.tree.missing desired levels key.right := by
  apply missing_congr
  intro K hK _
  rw [contains_eq_isSome, contains_eq_isSome, h.beside.find?_eq]
  rwa [sibling_left]

/-- A tour splits what is missing when it begins, in order. -/
theorem tour_eq_forM (policy : Policy) (combines : source.Combines)
    (hlimit : policy.maxResolution < 0x7fffffff)
    (hallow : policy.allowInterval top desired = .ok ()) (htop : top.left? = .ok top.left)
    (h : s.Steady policy.maxResolution) (hx : s.tree.Exact)
    (hready : Ready root key desired levels s) (hc : top.contains key = true) :
    tour policy source desired levels key s =
      forM (s.tree.missing desired levels key) (splitLeaf source) s := by
  induction levels generalizing key s with
  | zero => rfl
  | succ levels ih =>
    have hcl := contains_trans hc (contains_left key)
    have hcr := contains_trans hc (contains_right key)
    -- What is missing under the halves does not change while the tour comes to them.
    have halves : ∀ s₁, Moves source top desired s s₁ → Ready root key desired (levels + 1) s₁ →
        s₁.tree.contains key.left = true →
        tourHalves policy source desired levels key s₁ =
          forM (s₁.tree.missing desired levels key.left ++
            s₁.tree.missing desired levels key.right) (splitLeaf source) s₁ := by
      intro s₁ hm₁ h₁ hl₁
      have hs₁ := hm₁.steady hallow h
      have hx₁ := (hm₁.exact combines h.full hx).2
      rw [tourHalves, List.forM_append, ← bind_congr_run (ih hs₁ hx₁ (h₁.left hl₁) hcl)]
      apply bind_congr_ends (tour_ends policy (h₁.left hl₁) hcl)
      intro _ s₂ hleft
      rw [ih (hleft.moves.steady hallow hs₁) (hleft.moves.exact combines hs₁.full hx₁).2
        (hleft.ready_right h₁ hl₁) hcr, hleft.missing_right]
    obtain ⟨node, hnode⟩ := exists_find?_of_contains hready.mem
    have hleft := (h.inRange hready.mem).left?_eq_of_contains hlimit htop hc
    by_cases hacc : desired ≤ node.accuracy
    · have hnil : s.tree.missing desired (levels + 1) key = [] := by
        rw [List.eq_nil_iff_forall_not_mem]
        intro K hK
        obtain ⟨hcK, hpK, hlK⟩ := of_mem_missing hK
        rw [h.modest.contains_of_le hready.full hnode hacc
          (contains_trans hcK (contains_left K)) (by rw [left_power]; omega)] at hlK
        cases hlK
      rw [tour_accurate policy source _ h hlimit hready.full hleft hnode hacc, hnil]
      rfl
    · have hlt := not_le.1 hacc
      have hp : key.power < desired := (hx.power_le hready.full hnode).trans_lt hlt
      rw [missing_succ hp]
      cases hl : s.tree.contains key.left with
      | true =>
        rw [tour_entered source levels hleft hnode (.inl hlt) hl, if_pos rfl, List.nil_append]
        exact halves s .refl hready hl
      | false =>
        rw [tour_split policy source levels hleft hnode hlt hl, if_neg Bool.false_ne_true,
          List.singleton_append, List.forM_cons]
        apply bind_congr_ends (splitLeaf_divides hready hnode hlt hl hc)
        intro _ s₁ hs₁
        rw [halves s₁ hs₁.moves (hs₁.ready hready) hs₁.contains_left,
          hs₁.missing_half (left_power key), hs₁.missing_half (right_power key)]

/-- Sharpening an interval splits what is missing under it, in order, and does nothing else. -/
theorem sharpen_eq_forM (combines : source.Combines) (hlimit : policy.maxResolution < 0x7fffffff)
    (hallow : policy.allowInterval top desired = .ok ()) (hp : -0x80000000 ≤ top.power)
    (h : s.Steady policy.maxResolution) (hx : s.tree.Exact) (htop : s.tree.contains top = true) :
    sharpen policy source top desired s =
      forM (s.tree.missing desired (desired - top.power).toNat top) (splitLeaf source) s := by
  obtain ⟨root, hroot⟩ := h.full.exists_fullUnder htop
  obtain ⟨levels, hdeep⟩ := exists_deep s.tree desired top
  have hready : Ready root top desired levels s := ⟨hroot, h.modest, htop, hdeep.desired_lt.le⟩
  have hleft := (h.inRange htop).left?_eq hlimit (by omega)
  have htour := tour_eq_forM policy combines hlimit hallow hleft h hx hready (contains_self top)
  rw [sharpen_run source hallow h htop hdeep, ← missing_eq_of_le hready.desired_le, ← htour]
  cases hrun : tour policy source desired levels top s with
  | error failure s₁ => rw [bind_of_error hrun]
  | ok _ s₁ =>
    have hends : Ends (tour policy source desired levels top) s _ _ :=
      tour_ends policy hready (contains_self top)
    rw [ends_of_ok hrun] at hends
    obtain ⟨node, hnode⟩ := exists_find?_of_contains ((hends.keys top).2 (.inl htop))
    have hacc := le_accuracy_of_keys hends.full (hends.moves.exact combines h.full hx).2 hnode
      fun J hJ hpJ => (hends.keys J).2 (.inr ⟨hJ, hpJ⟩)
    rw [bind_of_ok hrun, confirm_run hnode hacc]

/-- Once all that is missing has been split, every leaf is as fine as the resolution. -/
theorem Splits.desired_le
    (h : Splits source top (s.tree.missing desired (desired - top.power).toNat top) s s')
    (hJ : top.contains J = true) (hl : s'.tree.contains J.left = false) : desired ≤ J.power := by
  by_contra hlt
  have hno : ¬ (s.tree.contains J.left = true ∨ ∃ K ∈ s.tree.missing desired
      (desired - top.power).toNat top, J.left = K.left ∨ J.left = K.right) := by
    rw [← h.keys, hl]
    exact Bool.false_ne_true
  have hmem : J ∈ s.tree.missing desired (desired - top.power).toNat top :=
    mem_missing (by omega) hJ (by omega) (Bool.eq_false_iff.2 fun hold => hno (.inl hold))
  exact hno (.inr ⟨J, hmem, .inl rfl⟩)

section Sharpen

variable (combines : source.Combines) (refuses : source.RefusesSplits refused)
  (hlimit : policy.maxResolution < 0x7fffffff) (hallow : policy.allowInterval top desired = .ok ())
  (hp : -0x80000000 ≤ top.power) (h : s.Steady policy.maxResolution) (hx : s.tree.Exact)
  (htop : s.tree.contains top = true)

include hlimit hallow hp in
/-- The halves of all that is missing have powers that their words hold. -/
theorem left?_of_mem_missing (hJ : J ∈ s.tree.missing desired levels top) :
    J.left? = .ok J.left := by
  obtain ⟨hc, hlt, -⟩ := of_mem_missing hJ
  have hle := power_le_of_contains hc
  exact (inRange_of_allowInterval hallow hc (hlt.le.trans (le_max_left _ _))).left?_eq hlimit
    (by omega)

include h htop in
/-- What is missing is a schedule. -/
theorem schedule_of_contains :
    s.tree.Schedule (s.tree.missing desired (desired - top.power).toNat top) := by
  obtain ⟨root, hroot⟩ := h.full.exists_fullUnder htop
  exact hroot.schedule_missing htop (by omega)

include combines refuses hlimit hallow hp h hx htop

/-- If no missing split is refused, sharpening does them all. -/
theorem sharpen_splits
    (willing : ∀ J ∈ s.tree.missing desired (desired - top.power).toNat top, J ∉ refused) :
    ∃ s' node, sharpen policy source top desired s = .ok () s' ∧
      Splits source top (s.tree.missing desired (desired - top.power).toNat top) s s' ∧
      s'.tree.find? top = some node ∧ desired ≤ node.accuracy := by
  have hschedule : s.tree.Schedule
      (s.tree.missing desired (desired - top.power).toNat top ++ []) := by
    rw [List.append_nil]
    exact schedule_of_contains h htop
  obtain ⟨s', hdone, hsplits, -⟩ := run_schedule combines refuses h.full hx hschedule
    (fun J hJ => (of_mem_missing hJ).1) (fun J => left?_of_mem_missing hlimit hallow hp) willing
  have hrun := (sharpen_eq_forM combines hlimit hallow hp h hx htop).trans hdone
  obtain ⟨node, hnode⟩ := exists_find?_of_contains ((hsplits.keys top).2 (.inl htop))
  have hsharp : Ends (sharpen policy source top desired) s _ _ := sharpen_sharp policy source s
  rw [ends_of_ok hrun] at hsharp
  exact ⟨s', node, hrun, hsplits, hnode, hsharp node hnode⟩

/-- Sharpening ends at the first missing split that is refused. -/
theorem sharpen_stops
    (hsplits : s.tree.missing desired (desired - top.power).toNat top = splits ++ J :: rest)
    (willing : ∀ K ∈ splits, K ∉ refused) (hJ : J ∈ refused) :
    ∃ s' node error, sharpen policy source top desired s = .error (.error error) s' ∧
      Splits source top splits s s' ∧ s'.tree.find? J = some node ∧
      source.split s'.tree.size node.value J.left J.right = .error error := by
  have hschedule : s.tree.Schedule (s.tree.missing desired (desired - top.power).toNat top) :=
    schedule_of_contains h htop
  have hfits : ∀ K ∈ splits ++ J :: rest, K.left? = .ok K.left := by
    rw [← hsplits]
    exact fun K => left?_of_mem_missing hlimit hallow hp
  have hunder : ∀ K ∈ splits ++ J :: rest, top.contains K = true := by
    rw [← hsplits]
    exact fun K hK => (of_mem_missing hK).1
  rw [sharpen_eq_forM combines hlimit hallow hp h hx htop]
  rw [hsplits] at hschedule ⊢
  exact stop_schedule combines refuses h.full hx hschedule
    (fun K hK => hunder K (List.mem_append_left _ hK)) hfits willing hJ

end Sharpen

end Work

namespace Cache

open Work

/-- After requests to an empty cache from sources that can combine, of which none has broken off for
want of a comparison, and also in the middle of another one, sharpening a cached interval `top`
splits exactly the intervals under it that are coarser than the resolution and have no halves yet,
each once and in key order; so it comes to an end. Unless a source refuses one of these splits, all
leaves under `top`, and `top` itself, are then as accurate as the resolution. If it does, the walk
ends with its error at the first one refused, and all splits before that one have been done and
propagated. In neither case does a node change that is not under or around `top`. This takes that no
power under `top` leaves its word when it is looked at, and that the walk does not break off. -/
theorem splits_after_requests {τ : Type} [Shelf V τ] (policy : Policy) (dissection : Dissection)
    (requests : List (Request V)) (hlimit : policy.maxResolution < 0x7fffffff)
    (combines : ∀ request ∈ requests, request.source.Combines)
    (compares : ({ policy, dissection } : Cache V τ).compares requests = true) :
    let cache := ({ policy, dissection } : Cache V τ).after requests
    ∀ (asked : Source V) I resolution (s : Store V τ), asked.Combines →
      policy.allowInterval I resolution = .ok () →
      Moves asked I resolution cache.plain.store s.plain →
      ∀ top desired, s.plain.tree.contains top = true → Word.fits32 top.power = true →
        policy.allowInterval top desired = .ok () →
        let splits := s.plain.tree.missing desired (desired - top.power).toNat top
        splits.Pairwise Before ∧
        (∀ J, J ∈ splits ↔ top.contains J = true ∧ J.power < desired ∧
          s.plain.tree.contains J.left = false ∧ s.plain.tree.contains J.right = false) ∧
        ∀ (source : Source V) (refused : Set DyadicInterval), source.Combines →
          source.RefusesSplits refused →
          Work.breaksOff (sharpen policy source top desired) s = false →
          let result := Work.outcome (sharpen policy source top desired) s
          result = forM splits (splitLeaf source) s.plain ∧
          ((∀ J ∈ splits, J ∉ refused) → ∃ s' node,
            result = .ok () s' ∧ Splits source top splits s.plain s' ∧
            (∀ J, top.contains J = true → s'.tree.contains J = true →
              s'.tree.contains J.left = false → desired ≤ J.power) ∧
            s'.tree.find? top = some node ∧ desired ≤ node.accuracy) ∧
          ∀ done J rest, splits = done ++ J :: rest → (∀ K ∈ done, K ∉ refused) → J ∈ refused →
            ∃ s' node error, result = .error (.error error) s' ∧
              Splits source top done s.plain s' ∧ s'.tree.find? J = some node ∧
              source.split s'.tree.size node.value J.left J.right = .error error := by
  intro cache asked I resolution s hasked hI hm top desired htop hp hallow splits
  have hpower : -0x80000000 ≤ top.power := by
    simp only [Word.fits32, Bool.and_eq_true, decide_eq_true_eq] at hp
    exact hp.1
  have hplain : cache.plain = ({ policy, dissection } : Cache V).after requests := by
    rw [plain_after compares, plain_new]
  rw [hplain] at hm
  have hstart := after_steady { policy, dissection } requests (steady_empty policy.maxResolution)
  have hexact : (({ policy, dissection } : Cache V).after requests).store.tree.Exact :=
    (after_exact combines (.inl rfl) exact_empty).2
  have h := hm.steady hI hstart
  obtain ⟨hfull, hx⟩ := hm.exact hasked hstart.full hexact
  obtain ⟨root, hroot⟩ := hfull.exists_fullUnder htop
  refine ⟨pairwise_missing, ?_, ?_⟩
  · intro J
    rw [mem_missing_iff (by omega)]
    constructor
    · rintro ⟨hc, hlt, hl⟩
      exact ⟨hc, hlt, hl, hroot.not_contains_right_under htop hc hl⟩
    · rintro ⟨hc, hlt, hl, -⟩
      exact ⟨hc, hlt, hl⟩
  · intro source refused hsource refuses hbreak result
    have hresult : result = sharpen policy source top desired s.plain :=
      Mirrors.outcome_eq (Mirrors.sharpen (.refl _ source) policy top desired) hbreak
    rw [hresult]
    refine ⟨sharpen_eq_forM hsource hlimit hallow hpower h hx htop, ?_, ?_⟩
    · intro willing
      obtain ⟨s', node, hrun, hsplits, hnode, hacc⟩ :=
        sharpen_splits hsource refuses hlimit hallow hpower h hx htop willing
      exact ⟨s', node, hrun, hsplits, fun J hJ _ hl => hsplits.desired_le hJ hl, hnode, hacc⟩
    · intro done J rest hsplits willing hJ
      exact sharpen_stops hsource refuses hlimit hallow hpower h hx htop hsplits willing hJ

/-- Under `[0, 1)` with `[1/2, 1)` split down to quarters five splits are missing at eighths, and the
third, of `[1/4, 1/2)`, is refused. -/
theorem splits_up_to_refused_split :
    let T : Transcript := ⟨"v", [], false, some []⟩
    let refusing : Transcript := ⟨"w", [], false, some [⟨2, 3⟩]⟩
    let earlier : List (Request String) :=
      [⟨T.source, .dyadic ⟨0, 0⟩, 0⟩, ⟨T.source, .dyadic ⟨1, 1⟩, 2⟩]
    let s := (({} : IndexedCache String).after earlier).store
    s.plain.tree.missing 3 3 ⟨0, 0⟩ = [⟨0, 1⟩, ⟨0, 2⟩, ⟨1, 2⟩, ⟨2, 2⟩, ⟨3, 2⟩] ∧
    (∃ s', Work.outcome (sharpen {} T.source ⟨0, 0⟩ 3) s = .ok () s' ∧
      Splits T.source ⟨0, 0⟩ [⟨0, 1⟩, ⟨0, 2⟩, ⟨1, 2⟩, ⟨2, 2⟩, ⟨3, 2⟩] s.plain s') ∧
    ∃ s' error, Work.outcome (sharpen {} refusing.source ⟨0, 0⟩ 3) s = .error (.error error) s' ∧
      Splits refusing.source ⟨0, 0⟩ [⟨0, 1⟩, ⟨0, 2⟩] s.plain s' := by
  intro T refusing earlier
  dsimp only
  have hmissing : (({} : IndexedCache String).after earlier).store.plain.tree.missing 3 3 ⟨0, 0⟩ =
      [⟨0, 1⟩, ⟨0, 2⟩, ⟨1, 2⟩, ⟨2, 2⟩, ⟨3, 2⟩] := by
    simp only [earlier, T]
    cbv
  have htop : (({} : IndexedCache String).after earlier).store.plain.tree.contains ⟨0, 0⟩ =
      true := by
    simp only [earlier, T]
    cbv
  have combines : ∀ request ∈ earlier, request.source.Combines := by
    intro request hrequest
    simp only [earlier, List.mem_cons, List.not_mem_nil, or_false] at hrequest
    obtain rfl | rfl := hrequest <;> exact Transcript.combines _
  have hall := Transcript.refusesSplits T rfl
  have hsome := Transcript.refusesSplits refusing rfl
  have compares : ({} : IndexedCache String).compares earlier = true := by
    simp only [earlier, T]
    cbv
  obtain ⟨-, -, hruns⟩ := splits_after_requests {} Dissection.onGrid earlier (by decide) combines
    compares T.source ⟨0, 0⟩ 0 _ (Transcript.combines T) (by rfl) .refl ⟨0, 0⟩ 3 htop (by decide)
    (by rfl)
  refine ⟨hmissing, ?_, ?_⟩
  · obtain ⟨-, hdone, -⟩ := hruns T.source _ (Transcript.combines T) hall (by
      simp only [earlier, T]
      cbv)
    obtain ⟨s', -, hrun, hsplits, -⟩ := hdone (by simp)
    exact ⟨s', hrun, hmissing ▸ hsplits⟩
  · obtain ⟨-, -, hstop⟩ := hruns refusing.source _ (Transcript.combines refusing) hsome (by
      simp only [earlier, T, refusing]
      cbv)
    obtain ⟨s', -, error, hrun, hsplits, -⟩ := hstop [⟨0, 1⟩, ⟨0, 2⟩] ⟨1, 2⟩ [⟨2, 2⟩, ⟨3, 2⟩] hmissing
      (by simp [left, right]) (by simp [left])
    exact ⟨s', error, hrun, hsplits⟩

/-- At the greatest power the walk meets a fault at the first leaf it has made, so that a missing
split is never made, though nothing is refused. -/
theorem sharpen_overflows_at_greatest_power :
    let T : Transcript := ⟨"v", [], false, none⟩
    let policy : Policy := { maxResolution := 0x7fffffff }
    let s := (({ policy } : IndexedCache String).after
      [⟨T.source, .dyadic ⟨0, 0x7ffffffd⟩, 0x7ffffffd⟩]).store
    T.source.Combines ∧ T.source.RefusesSplits ∅ ∧
    s.plain.tree.contains ⟨0, 0x7ffffffd⟩ = true ∧
    policy.allowInterval ⟨0, 0x7ffffffd⟩ 0x7fffffff = .ok () ∧
    ⟨1, 0x7ffffffe⟩ ∈ s.plain.tree.missing 0x7fffffff 2 ⟨0, 0x7ffffffd⟩ ∧
    ∃ s', Work.outcome (sharpen policy T.source ⟨0, 0x7ffffffd⟩ 0x7fffffff) s =
        .error (.fault .overflow) s' ∧
      s'.tree.contains ⟨2, 0x7fffffff⟩ = false := by
  intro T policy
  dsimp only
  refine ⟨Transcript.combines T, ?_, ?_, by rfl, ?_, ?_⟩
  · intro nodes value J
    simp [T, Transcript.source, Source.halving]
  · simp only [policy, T]
    cbv
  · have hmissing : (({ policy } : IndexedCache String).after
      [⟨T.source, .dyadic ⟨0, 0x7ffffffd⟩, 0x7ffffffd⟩]).store.plain.tree.missing 0x7fffffff 2
        ⟨0, 0x7ffffffd⟩ = [⟨0, 0x7ffffffd⟩, ⟨0, 0x7ffffffe⟩, ⟨1, 0x7ffffffe⟩] := by
      simp only [policy, T]
      cbv
    rw [hmissing]
    decide
  · refine ⟨_, by simp only [policy, T]; cbv, ?_⟩
    cbv

end Cache

end SignatureCache
