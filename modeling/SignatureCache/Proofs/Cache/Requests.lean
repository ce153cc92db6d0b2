import SignatureCache.Proofs.Cache.Phases

/-!
# Sequences of requests

A cache that starts empty is only ever changed by requests, answered or refused, and a request only
changes it by moves for the intervals it is about. So what holds of the empty store and is kept by
every move holds after any sequence of requests.
-/

namespace SignatureCache

namespace Work

open DyadicInterval SignatureCache.Tree

variable {V τ : Type} [Shelf V τ] {source : Source V} {I : DyadicInterval} {resolution : Int}
  {s : Store V}

/-! ### One interval -/

theorem grow_sameSide {root : DyadicInterval} (source : Source V) (side : SameSide root I) :
    (grow source root I : WorkOn V τ DyadicInterval) = growToContain source root I side := by
  rw [grow, dif_pos side]

theorem grow_unreachable {root : DyadicInterval} (source : Source V) (hside : ¬ SameSide root I) :
    (grow source root I : WorkOn V τ DyadicInterval) =
      throw (.error (.rootUnreachable root I)) := by
  rw [grow, dif_neg hside]

/-- In an empty tree the interval becomes the root. -/
theorem reach_empty (policy : Policy) (source : Source V) (I : DyadicInterval) (resolution : Int)
    (h : s.tree = empty) :
    reach policy source I resolution s =
      (plant source I >>= fun _ =>
        if I.power < resolution then sharpen policy source I resolution else pure ()) s := by
  rw [reach, bind_of_ok (tree_run s), root?_eq_none_iff.2 h]

/-- Under a root the interval is reached in three phases. -/
theorem reach_root {root : DyadicInterval} (policy : Policy) (source : Source V)
    (I : DyadicInterval) (resolution : Int) (h : s.tree.FullUnder root) :
    reach policy source I resolution s =
      (grow source root I >>= fun top => descend source top I >>= fun _ =>
        sharpen policy source I resolution) s := by
  rw [reach, bind_of_ok (tree_run s), h.root?_eq]

theorem grow_moves {root : DyadicInterval} (h : s.tree.FullUnder root) :
    Ends (grow source root I) s
      (fun top s' => Moves source I resolution s s' ∧ s'.tree.FullUnder top ∧
        top.contains I = true)
      (fun _ s' => Moves source I resolution s s' ∧ True) := by
  by_cases side : SameSide root I
  · rw [grow_sameSide source side]
    apply (growToContain_ends resolution side h).mono (fun _ _ => id)
    rintro failure s' ⟨hm, -⟩
    exact ⟨hm, trivial⟩
  · rw [grow_unreachable source side]
    exact ⟨.refl, trivial⟩

theorem reach_moves (policy : Policy) (h : s.tree.Full) :
    Ends (reach policy source I resolution) s
      (fun _ s' => Moves source I resolution s s' ∧ True)
      (fun _ s' => Moves source I resolution s s' ∧ True) := by
  have hsharpen : ∀ {s₁ : Store V} {root : DyadicInterval}, Moves source I resolution s s₁ →
      s₁.tree.FullUnder root → Ends (sharpen policy source I resolution) s₁
        (fun _ s' => Moves source I resolution s s' ∧ True)
        (fun _ s' => Moves source I resolution s s' ∧ True) := by
    intro s₁ root hm hfull
    exact (sharpen_moves policy hfull).after hm
  rcases h with hempty | ⟨root, h⟩
  · rw [ends_congr (reach_empty policy source I resolution hempty)]
    refine Ends.bind ((plant_ends resolution hempty).mono (fun _ _ => id) ?_) ?_
    · rintro failure s' ⟨hm, -⟩
      exact ⟨hm, trivial⟩
    · rintro ⟨⟩ s₁ ⟨hm, value, rfl⟩
      by_cases hp : I.power < resolution
      · rw [if_pos hp]
        exact hsharpen hm (fullUnder_planted hempty value)
      · rw [if_neg hp]
        exact ⟨hm, trivial⟩
  · rw [ends_congr (reach_root policy source I resolution h)]
    apply (grow_moves h).bind
    rintro top s₁ ⟨hm, hfull, hc⟩
    refine Ends.bind (((descend_ends resolution hfull hc).after hm).mono (fun _ _ => id) ?_) ?_
    · rintro failure s' ⟨hm, -⟩
      exact ⟨hm, trivial⟩
    · rintro ⟨⟩ s₂ ⟨hm, hfull, -⟩
      exact hsharpen hm hfull

/-! ### How a query for an interval begins -/

/-- The value stored at an interval. -/
def stored (I : DyadicInterval) : WorkOn V τ V := do
  let node ← orMissing (.nodeMissing I) ((← searched I).find? I)
  return node.value

theorem stored_run {node : Node V} (hnode : s.tree.find? I = some node) :
    stored I s = .ok node.value s := by
  rw [stored, bind_of_ok (searched_run s I), hnode]
  rfl

theorem stored_ends (I : DyadicInterval) (s : Store V) :
    Ends (stored I) s
      (fun value s' => s' = s ∧ ∃ node, s'.tree.find? I = some node ∧ node.value = value)
      (fun _ s' => s' = s) := by
  cases hnode : s.tree.find? I with
  | some node =>
    rw [ends_of_ok (stored_run hnode)]
    exact ⟨rfl, node, hnode, rfl⟩
  | none =>
    rw [stored, Ends, bind_of_ok (searched_run s I), hnode]
    exact rfl

variable {policy : Policy}

theorem dyadicValue_refused {error : Error} (source : Source V) (s : Store V)
    (h : policy.allowInterval I resolution = .error error) :
    dyadicValue policy source I resolution s = .error (.error error) s := by
  rw [dyadicValue, h]
  rfl

theorem dyadicValue_hit {node : Node V} (source : Source V)
    (h : policy.allowInterval I resolution = .ok ()) (hnode : s.tree.find? I = some node)
    (hr : resolution ≤ node.accuracy) :
    dyadicValue policy source I resolution s = .ok node.value s.answered := by
  have hacc : s.tree.accuracy? I = some node.accuracy := by
    simp [accuracy?, hnode]
  rw [dyadicValue, h, bind_of_ok (orError_ok _ s), bind_of_ok (count_run _ s),
    bind_of_ok (searched_run _ I)]
  simp only [hacc, if_pos hr]
  rw [bind_of_ok (count_run _ _)]
  exact stored_run (s := s.answered) hnode

theorem dyadicValue_cached {node : Node V} (source : Source V)
    (h : policy.allowInterval I resolution = .ok ()) (hnode : s.tree.find? I = some node)
    (hr : node.accuracy < resolution) :
    dyadicValue policy source I resolution s =
      (sharpen policy source I resolution >>= fun _ => stored I) s.asked := by
  have hacc : s.tree.accuracy? I = some node.accuracy := by
    simp [accuracy?, hnode]
  rw [dyadicValue, h, bind_of_ok (orError_ok _ s), bind_of_ok (count_run _ s),
    bind_of_ok (searched_run _ I)]
  simp only [hacc, if_neg (not_le.2 hr)]
  rfl

theorem dyadicValue_absent (source : Source V) (h : policy.allowInterval I resolution = .ok ())
    (hno : s.tree.contains I = false) :
    dyadicValue policy source I resolution s =
      (reach policy source I resolution >>= fun _ => stored I) s.asked := by
  have hacc : s.tree.accuracy? I = none := by
    simp [accuracy?, find?_eq_none_of_not_contains hno]
  rw [dyadicValue, h, bind_of_ok (orError_ok _ s), bind_of_ok (count_run _ s),
    bind_of_ok (searched_run _ I)]
  simp only [hacc]
  rfl

/-- What a query finds at its interval: nothing, or a node that is accurate enough or not. -/
inductive Found (s : Store V) (I : DyadicInterval) (resolution : Int) : Prop
  | absent (hno : s.tree.contains I = false)
  | accurate {node : Node V} (hnode : s.tree.find? I = some node) (hr : resolution ≤ node.accuracy)
  | coarse {node : Node V} (hnode : s.tree.find? I = some node) (hlt : node.accuracy < resolution)

theorem found (s : Store V) (I : DyadicInterval) (resolution : Int) : Found s I resolution := by
  cases hc : s.tree.contains I with
  | false => exact .absent hc
  | true =>
    obtain ⟨node, hnode⟩ := exists_find?_of_contains hc
    by_cases hr : resolution ≤ node.accuracy
    · exact .accurate hnode hr
    · exact .coarse hnode (not_le.1 hr)

/-- A query for an interval is refused and changes nothing, or makes moves for it; in the end it
answers the value stored there. -/
theorem dyadicValue_moves (policy : Policy) (h : s.tree.Full) :
    Ends (dyadicValue policy source I resolution) s
      (fun value s' => policy.allowInterval I resolution = .ok () ∧
        Moves source I resolution s s' ∧ ∃ node, s'.tree.find? I = some node ∧ node.value = value)
      (fun _ s' => s' = s ∨ policy.allowInterval I resolution = .ok () ∧
        Moves source I resolution s s') := by
  have hask : Moves source I resolution s s.asked := .single (.ask s)
  -- What is left to do once the query is counted.
  have hrest : ∀ {x : Work V Unit},
      Ends x s.asked (fun _ s' => Moves source I resolution s s' ∧ True)
        (fun _ s' => Moves source I resolution s s' ∧ True) →
      Ends (x >>= fun _ => stored I) s.asked
        (fun value s' => Moves source I resolution s s' ∧
          ∃ node, s'.tree.find? I = some node ∧ node.value = value)
        (fun _ s' => Moves source I resolution s s' ∧ True) := by
    intro x hx
    apply hx.bind
    rintro _ s₁ ⟨hm, -⟩
    apply (stored_ends I s₁).mono
    · rintro value s' ⟨rfl, hnode⟩
      exact ⟨hm, hnode⟩
    · rintro failure s' rfl
      exact ⟨hm, trivial⟩
  cases hallow : policy.allowInterval I resolution with
  | error error =>
    rw [ends_of_error (dyadicValue_refused source s hallow)]
    exact .inl rfl
  | ok _ =>
    cases found s I resolution with
    | absent hno =>
      have hreach : Ends (reach policy source I resolution) s.asked _ _ := reach_moves policy h
      rw [ends_congr (dyadicValue_absent source hallow hno)]
      apply (hrest (hreach.after hask)).mono
      · exact fun value s' hend => ⟨rfl, hend⟩
      · exact fun failure s' hend => .inr ⟨rfl, hend.1⟩
    | @accurate node hnode hr =>
      rw [ends_of_ok (dyadicValue_hit source hallow hnode hr)]
      exact ⟨rfl, .single (.hit hnode hr), node, hnode, rfl⟩
    | coarse hnode hlt =>
      obtain ⟨root, hroot⟩ := h.exists_fullUnder (contains_of_find? hnode)
      have hsharpen : Ends (sharpen policy source I resolution) s.asked _ _ :=
        sharpen_moves policy hroot
      rw [ends_congr (dyadicValue_cached source hallow hnode hlt)]
      apply (hrest (hsharpen.after hask)).mono
      · exact fun value s' hend => ⟨rfl, hend⟩
      · exact fun failure s' hend => .inr ⟨rfl, hend.1⟩

/-! ### What is answered is accurate enough -/

/-- What is stored at the interval is accurate to the resolution. -/
def Sharp (I : DyadicInterval) (resolution : Int) (s : Store V) : Prop :=
  ∀ node, s.tree.find? I = some node → resolution ≤ node.accuracy

/-- The walk ends in success only after a last look at the accuracy. -/
theorem sharpen_sharp (policy : Policy) (source : Source V) (s : Store V) :
    Ends (sharpen policy source I resolution) s (fun _ => Sharp I resolution)
      (fun _ _ => True) := by
  rw [sharpen, Ends, bind_of_ok (tree_run s)]
  refine Ends.bind (ends_of_final (P := fun _ => True) trivial) ?_
  rintro ⟨⟩ s₁ -
  rw [Ends, bind_of_ok (searched_run s₁ I)]
  cases hlast : (s₁.tree.accuracy? I).all (· < resolution) with
  | true => trivial
  | false =>
    intro node hnode
    simpa [accuracy?, hnode] using hlast

theorem reach_sharp (policy : Policy) (h : s.tree.Full) :
    Ends (reach policy source I resolution) s (fun _ => Sharp I resolution)
      (fun _ _ => True) := by
  rcases h with hempty | ⟨root, h⟩
  · rw [ends_congr (reach_empty policy source I resolution hempty)]
    refine Ends.bind ((plant_ends resolution hempty).mono (fun _ _ => id) fun _ _ _ => trivial) ?_
    rintro ⟨⟩ s₁ ⟨-, value, rfl⟩
    by_cases hp : I.power < resolution
    · rw [if_pos hp]
      exact sharpen_sharp policy source _
    · rw [if_neg hp]
      intro node hnode
      rw [Store.planted, find?_put_self] at hnode
      cases hnode
      exact not_lt.1 hp
  · rw [ends_congr (reach_root policy source I resolution h)]
    refine Ends.bind (ends_of_final (P := fun _ => True) trivial) ?_
    rintro top s₁ -
    refine Ends.bind (ends_of_final (P := fun _ => True) trivial) ?_
    rintro ⟨⟩ s₂ -
    exact sharpen_sharp policy source s₂

/-- A query that is answered has passed its checks and made moves, and it answers what is then
stored at its interval, accurate enough. -/
theorem dyadicValue_sharp {value : V} {s' : Store V} (h : s.tree.Full)
    (hrun : dyadicValue policy source I resolution s = .ok value s') :
    policy.allowInterval I resolution = .ok () ∧ Moves source I resolution s s' ∧
      ∃ node, s'.tree.find? I = some node ∧ node.value = value ∧ resolution ≤ node.accuracy := by
  have hends : Ends (dyadicValue policy source I resolution) s _ _ := dyadicValue_moves policy h
  rw [ends_of_ok hrun] at hends
  obtain ⟨hallow, hm, node, hnode, hvalue⟩ := hends
  refine ⟨hallow, hm, node, hnode, hvalue, ?_⟩
  have hsharp : ∀ {x : Work V Unit}, Ends x s.asked (fun _ => Sharp I resolution)
      (fun _ _ => True) → (x >>= fun _ => stored I) s.asked = .ok value s' →
      resolution ≤ node.accuracy := by
    intro x hx hrun
    obtain ⟨_, s₁, hfirst, hstored⟩ := exists_of_bind_ok hrun
    have hlast := stored_ends I s₁
    rw [ends_of_ok hstored] at hlast
    rw [ends_of_ok hfirst, ← hlast.1] at hx
    exact hx node hnode
  cases found s I resolution with
  | absent hno =>
    rw [dyadicValue_absent source hallow hno] at hrun
    exact hsharp (reach_sharp policy h) hrun
  | accurate hold hr =>
    rw [dyadicValue_hit source hallow hold hr] at hrun
    cases hrun
    cases hold.symm.trans hnode
    exact hr
  | coarse hold hlt =>
    rw [dyadicValue_cached source hallow hold hlt] at hrun
    exact hsharp (sharpen_sharp policy source _) hrun

/-! ### Real intervals -/

theorem realValue_empty {I : RealInterval} (policy : Policy) (dissection : Dissection)
    (source : Source V) (resolution : Int) (s : Store V) (hempty : I.isEmpty = true) :
    realValue policy dissection source I resolution s = .ok (source.zero s.tree.size) s := by
  rw [realValue, hempty]
  rfl

theorem realValue_refused {I : RealInterval} {error : Error} (dissection : Dissection)
    (source : Source V) (s : Store V) (hempty : I.isEmpty = false)
    (hallow : policy.allow resolution = .error error) :
    realValue policy dissection source I resolution s = .error (.error error) s := by
  rw [realValue, hempty, hallow]
  rfl

theorem realValue_undissected {dissection : Dissection} {I : RealInterval} {error : Error}
    (source : Source V) (s : Store V) (hempty : I.isEmpty = false)
    (hallow : policy.allow resolution = .ok ()) (hpieces : dissection I resolution = .error error) :
    realValue policy dissection source I resolution s = .error (.error error) s := by
  rw [realValue, hempty, hallow, hpieces]
  rfl

/-- A query for a real interval that passes its checks asks for the pieces one by one. -/
theorem realValue_of_pieces {dissection : Dissection} {I : RealInterval}
    {pieces : List DyadicInterval} (source : Source V) (s : Store V) (hempty : I.isEmpty = false)
    (hallow : policy.allow resolution = .ok ()) (hpieces : dissection I resolution = .ok pieces) :
    realValue policy dissection source I resolution s =
      (pieces.mapM (fun piece => dyadicValue policy source piece resolution) >>=
        fun values => tree >>= fun t => orFault (source.combineAll t.size values)) s := by
  rw [realValue, hempty, hallow, hpieces, if_neg Bool.false_ne_true, bind_of_ok (orError_ok _ s),
    bind_of_ok (orError_ok _ s)]

/-- A query for a real interval that is answered asks about no points, or is allowed and the product
of its pieces. -/
theorem realValue_ok_cases {dissection : Dissection} {I : RealInterval} {value : V}
    {s' : Store V} (hrun : realValue policy dissection source I resolution s = .ok value s') :
    (I.isEmpty = true ∧ value = source.zero s.tree.size ∧ s' = s) ∨
      ∃ pieces values, I.isEmpty = false ∧ policy.allow resolution = .ok () ∧
        dissection I resolution = .ok pieces ∧
        pieces.mapM (fun piece => dyadicValue policy source piece resolution) s =
          .ok values s' ∧ source.combineAll s'.tree.size values = .ok value := by
  cases hempty : I.isEmpty with
  | true =>
    rw [realValue_empty policy dissection source resolution s hempty] at hrun
    cases hrun
    exact .inl ⟨rfl, rfl, rfl⟩
  | false =>
    cases hallow : policy.allow resolution with
    | error error =>
      rw [realValue_refused dissection source s hempty hallow] at hrun
      cases hrun
    | ok _ =>
      cases hpieces : dissection I resolution with
      | error error =>
        rw [realValue_undissected source s hempty hallow hpieces] at hrun
        cases hrun
      | ok pieces =>
        rw [realValue_of_pieces source s hempty hallow hpieces] at hrun
        obtain ⟨values, s₁, hvalues, hproduct⟩ := exists_of_bind_ok hrun
        rw [bind_of_ok (tree_run s₁)] at hproduct
        cases hcombined : source.combineAll s₁.tree.size values with
        | error fault =>
          rw [hcombined] at hproduct
          cases hproduct
        | ok product =>
          rw [hcombined] at hproduct
          cases hproduct
          exact .inr ⟨pieces, values, rfl, rfl, rfl, hvalues, hcombined⟩

/-- What the queries for the pieces keep, a query for a real interval keeps. Its value is the
product of theirs, and where it fails it is refused, or a piece or the product fails. -/
theorem realValue_ends {P : Store V → Prop} {R : DyadicInterval → V → Prop}
    {F : Failure → Prop} {dissection : Dissection} {I : RealInterval}
    (piece : ∀ pieces, dissection I resolution = .ok pieces → ∀ J ∈ pieces, ∀ s, P s →
      Ends (dyadicValue policy source J resolution) s (fun value s' => P s' ∧ R J value)
        (fun failure s' => P s' ∧ F failure))
    (refused : ∀ error, F (.error error))
    (product : ∀ nodes values fault, source.combineAll nodes values = .error fault →
      F (.fault fault))
    (h : P s) :
    Ends (realValue policy dissection source I resolution) s
      (fun value s' => P s' ∧ (I.isEmpty = true ∧ value = source.zero s'.tree.size ∨
        ∃ pieces values, dissection I resolution = .ok pieces ∧ List.Forall₂ R pieces values ∧
          source.combineAll s'.tree.size values = .ok value))
      (fun failure s' => P s' ∧ F failure) := by
  cases hempty : I.isEmpty with
  | true =>
    rw [ends_of_ok (realValue_empty policy dissection source resolution s hempty)]
    exact ⟨h, .inl ⟨rfl, rfl⟩⟩
  | false =>
    cases hallow : policy.allow resolution with
    | error error =>
      rw [ends_of_error (realValue_refused dissection source s hempty hallow)]
      exact ⟨h, refused error⟩
    | ok _ =>
      cases hpieces : dissection I resolution with
      | error error =>
        rw [ends_of_error (realValue_undissected source s hempty hallow hpieces)]
        exact ⟨h, refused error⟩
      | ok pieces =>
        rw [ends_congr (realValue_of_pieces source s hempty hallow hpieces)]
        apply (Ends.mapM (piece pieces hpieces) h).bind
        rintro values s₁ ⟨h₁, hvalues⟩
        rw [Ends, bind_of_ok (tree_run s₁)]
        cases hproduct : source.combineAll s₁.tree.size values with
        | error fault => exact ⟨h₁, product _ values fault hproduct⟩
        | ok value => exact ⟨h₁, .inr ⟨pieces, values, rfl, hvalues, hproduct⟩⟩

/-! ### What moves keep -/

theorem Moves.keep {P : Store V → Prop}
    (move : ∀ s s', P s → Move source I resolution s s' → P s') {s' : Store V}
    (hm : Moves source I resolution s s') (h : P s) : P s' := by
  induction hm with
  | refl => exact h
  | tail _ hm ih => exact move _ _ ih hm

theorem dyadicValue_keeps {P : Store V → Prop} (policy : Policy)
    (full : ∀ s, P s → s.tree.Full)
    (move : policy.allowInterval I resolution = .ok () →
      ∀ s s', P s → Move source I resolution s s' → P s')
    (h : P s) :
    Ends (dyadicValue policy source I resolution) s
      (fun value s' => P s' ∧ ∃ node, s'.tree.find? I = some node ∧ node.value = value)
      (fun _ s' => P s') := by
  apply (dyadicValue_moves policy (full s h)).mono
  · rintro value s' ⟨hallow, hm, hnode⟩
    exact ⟨hm.keep (move hallow) h, hnode⟩
  · rintro failure s' (rfl | ⟨hallow, hm⟩)
    · exact h
    · exact hm.keep (move hallow) h

end Work

/-- What is asked of a cache at one time. -/
structure Request (V : Type) where
  source : Source V
  query : Query
  resolution : Int

/-- The intervals from whose values a request is answered. -/
def Request.intervals {V : Type} (request : Request V) (dissection : Dissection) :
    List DyadicInterval :=
  match request.query with
  | .dyadic I => [I]
  | .real I =>
    match dissection I request.resolution with
    | .ok pieces => pieces
    | .error _ => []

namespace Cache

open Work

variable {V τ : Type} [Shelf V τ]

/-- The cache as a sequence of requests leaves it, be they answered or not. -/
def after (cache : Cache V τ) (requests : List (Request V)) : Cache V τ :=
  requests.foldl
    (fun cache request => (cache.answer request.source request.query request.resolution).2) cache

theorem answer_snd (cache : Cache V τ) (source : Source V) (query : Query) (resolution : Int) :
    (cache.answer source query resolution).2 =
      { cache with
        store := final (Work.answer cache.policy cache.dissection source query resolution)
          cache.store } := by
  rw [answer, final]
  split <;> simp_all

/-- An answer and the cache it leaves are those of the work. -/
theorem run_of_answer_ok {cache cache' : Cache V} {source : Source V} {query : Query}
    {resolution : Int} {value : V}
    (h : cache.answer source query resolution = (.ok value, cache')) :
    Work.answer cache.policy cache.dissection source query resolution cache.store =
      .ok value cache'.store := by
  rw [answer] at h
  split at h
  · cases h
    assumption
  · cases h

theorem run_of_answer_error {cache cache' : Cache V} {source : Source V} {query : Query}
    {resolution : Int} {failure : Failure}
    (h : cache.answer source query resolution = (.error failure, cache')) :
    Work.answer cache.policy cache.dissection source query resolution cache.store =
      .error failure cache'.store := by
  rw [answer] at h
  split at h
  · cases h
  · cases h
    assumption

theorem answer_of_ok {cache : Cache V τ} {source : Source V} (query : Query) {resolution : Int}
    {value : V} {s : Store V τ}
    (hrun : (Work.answer cache.policy cache.dissection source query resolution : WorkOn V τ V)
      cache.store = .ok value s) :
    cache.answer source query resolution = (.ok value, { cache with store := s }) := by
  rw [answer, hrun]

theorem answer_of_error {cache : Cache V τ} {source : Source V} (query : Query) {resolution : Int}
    {failure : Failure} {s : Store V τ}
    (hrun : (Work.answer cache.policy cache.dissection source query resolution : WorkOn V τ V)
      cache.store = .error failure s) :
    cache.answer source query resolution = (.error failure, { cache with store := s }) := by
  rw [answer, hrun]

theorem answer_dyadic_of_error {cache : Cache V} {source : Source V} {I : DyadicInterval}
    {resolution : Int} {failure : Failure} {s : Store V}
    (hrun : dyadicValue cache.policy source I resolution cache.store = .error failure s) :
    cache.answer source (.dyadic I) resolution = (.error failure, { cache with store := s }) :=
  answer_of_error (.dyadic I) hrun

theorem answer_dyadic_of_ok {cache : Cache V} {source : Source V} {I : DyadicInterval}
    {resolution : Int} {value : V} {s : Store V}
    (hrun : dyadicValue cache.policy source I resolution cache.store = .ok value s) :
    cache.answer source (.dyadic I) resolution = (.ok value, { cache with store := s }) :=
  answer_of_ok (.dyadic I) hrun

/-- A query changes nothing but the store. -/
theorem eq_of_answer {cache cache' : Cache V} {source : Source V} {query : Query}
    {resolution : Int} {result : Except Failure V}
    (h : cache.answer source query resolution = (result, cache')) :
    cache' = { cache with store := cache'.store } := by
  have hsnd := answer_snd cache source query resolution
  rw [h] at hsnd
  change cache' = _ at hsnd
  rw [hsnd]

theorem after_cons (cache : Cache V τ) (request : Request V) (requests : List (Request V)) :
    cache.after (request :: requests) =
      (cache.answer request.source request.query request.resolution).2.after requests :=
  rfl

theorem after_append (cache : Cache V τ) (earlier later : List (Request V)) :
    cache.after (earlier ++ later) = (cache.after earlier).after later :=
  List.foldl_append

theorem after_policy (cache : Cache V τ) (requests : List (Request V)) :
    (cache.after requests).policy = cache.policy := by
  induction requests generalizing cache with
  | nil => rfl
  | cons request requests ih => rw [after_cons, ih, answer_snd]

theorem after_dissection (cache : Cache V τ) (requests : List (Request V)) :
    (cache.after requests).dissection = cache.dissection := by
  induction requests generalizing cache with
  | nil => rfl
  | cons request requests ih => rw [after_cons, ih, answer_snd]

/-- What every move of a request keeps, the request keeps. -/
theorem answer_keeps {P : Store V → Prop} (cache : Cache V) (request : Request V)
    (full : ∀ s, P s → s.tree.Full)
    (move : ∀ I ∈ request.intervals cache.dissection,
      cache.policy.allowInterval I request.resolution = .ok () →
      ∀ s s', P s → Move request.source I request.resolution s s' → P s')
    (start : P cache.store) :
    P (cache.answer request.source request.query request.resolution).2.store := by
  obtain ⟨source, query, resolution⟩ := request
  rw [answer_snd]
  apply Ends.final
  cases query with
  | dyadic I =>
    apply (dyadicValue_keeps cache.policy full (move I (by simp [Request.intervals])) start).mono
    · exact fun _ _ h => h.1
    · exact fun _ _ h => h
  | real I =>
    refine Ends.mono (realValue_ends (R := fun _ _ => True) (F := fun _ => True) ?_
      (fun _ => trivial) (fun _ _ _ _ => trivial) start) ?_ ?_
    · intro pieces hpieces J hJ s hs
      have hmem : J ∈ Request.intervals ⟨source, .real I, resolution⟩ cache.dissection := by
        simpa [Request.intervals, hpieces] using hJ
      apply (dyadicValue_keeps cache.policy full (move J hmem) hs).mono
      · exact fun _ _ h => ⟨h.1, trivial⟩
      · exact fun _ _ h => ⟨h, trivial⟩
    · exact fun _ _ h => h.1
    · exact fun _ _ h => h.1

/-- What the first store has and every move keeps, the store after all requests has. -/
theorem after_induction {P : Store V → Prop} {cache : Cache V} {requests : List (Request V)}
    (full : ∀ s, P s → s.tree.Full)
    (move : ∀ request ∈ requests, ∀ I ∈ request.intervals cache.dissection,
      cache.policy.allowInterval I request.resolution = .ok () →
      ∀ s s', P s → Move request.source I request.resolution s s' → P s')
    (start : P cache.store) : P (cache.after requests).store := by
  induction requests generalizing cache with
  | nil => exact start
  | cons request requests ih =>
    rw [after_cons]
    apply ih
    · intro request' hmem
      rw [answer_snd]
      exact move request' (List.mem_cons_of_mem _ hmem)
    · exact answer_keeps cache request full (move request List.mem_cons_self) start

end Cache

end SignatureCache
