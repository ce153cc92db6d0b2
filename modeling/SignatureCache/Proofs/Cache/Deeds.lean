import SignatureCache.Proofs.Cache.Requests

/-!
# Deeds

A move says why a query makes it. A deed says what is done, and to which key, so that a whole run
can be looked back on: which keys were created, computed afresh and split, and in which order. Every
program of a query, however it ends, has done a list of deeds and nothing else; this is shown once,
for anything that all deeds keep, and the list itself is the first thing they keep.
-/

namespace SignatureCache

open DyadicInterval SignatureCache.Tree

/-- One thing that a query does, and the key it does it to. -/
inductive Deed where
  | ask (I : DyadicInterval)
  | hit (I : DyadicInterval)
  | plant (I : DyadicInterval)
  | compute (root : DyadicInterval)
  | grow (root : DyadicInterval)
  | split (leaf : DyadicInterval)
deriving DecidableEq

namespace Deed

/-- The keys that are added to the tree. -/
def created : Deed → List DyadicInterval
  | .plant I => [I]
  | .grow root => [root.sibling, root.parent]
  | .split leaf => [leaf.left, leaf.right]
  | .ask _ | .hit _ | .compute _ => []

/-- The intervals whose value is computed afresh. -/
def computed : Deed → List DyadicInterval
  | .plant I => [I]
  | .grow root | .compute root => [root.sibling]
  | .ask _ | .hit _ | .split _ => []

/-- The keys that are added with a fresh value: the first root, or the neighbour of a root. -/
def seeds : Deed → List DyadicInterval
  | .plant I => [I]
  | .grow root => [root.sibling]
  | .ask _ | .hit _ | .compute _ | .split _ => []

/-- The keys that are split. -/
def halved : Deed → List DyadicInterval
  | .split leaf => [leaf]
  | .ask _ | .hit _ | .plant _ | .compute _ | .grow _ => []

end Deed

namespace Work

variable {V α β : Type} {source : Source V} {deed : Deed} {deeds later : List Deed}
  {s s' s₁ : Store V}

/-! ### Deeds and traces -/

/-- The deed, done with the values of a source, leads from one store to the other. A fresh value is
lost if it cannot be combined with that of the root. -/
inductive Does (source : Source V) : Deed → Store V → Store V → Prop
  | ask (I : DyadicInterval) (s : Store V) : Does source (.ask I) s s.asked
  | hit {s : Store V} {I : DyadicInterval} {node : Node V} (hnode : s.tree.find? I = some node) :
      Does source (.hit I) s s.answered
  | plant {s : Store V} {I : DyadicInterval} {value : V} (hempty : s.tree = empty)
      (hv : source.fresh s.tree.size I = .ok value) : Does source (.plant I) s (s.planted I value)
  | compute {s : Store V} {root : DyadicInterval} {node : Node V} {neighbourValue : V}
      {fault : Fault} (hroot : s.tree.FullUnder root) (hnode : s.tree.find? root = some node)
      (hv : source.fresh s.tree.size root.sibling = .ok neighbourValue)
      (hc : source.combine s.tree.size node.value neighbourValue root.half = .error fault) :
      Does source (.compute root) s (computed s)
  | grow {s : Store V} {root : DyadicInterval} {node : Node V} {neighbourValue value : V}
      (hroot : s.tree.FullUnder root) (hnode : s.tree.find? root = some node)
      (hv : source.fresh s.tree.size root.sibling = .ok neighbourValue)
      (hc : source.combine s.tree.size node.value neighbourValue root.half = .ok value) :
      Does source (.grow root) s (s.grown root node neighbourValue value)
  | split {s : Store V} {leaf : DyadicInterval} {node : Node V} {leftValue rightValue : V}
      (hnode : s.tree.find? leaf = some node) (hl : s.tree.contains leaf.left = false)
      (hv : source.split s.tree.size node.value leaf.left leaf.right =
        .ok (leftValue, rightValue)) :
      Does source (.split leaf) s
        (final (propagate source leaf.left) (s.halved leaf leftValue rightValue))

/-- The deeds, done one after the other, lead from one store to the other. -/
inductive Trace (source : Source V) : List Deed → Store V → Store V → Prop
  | refl (s : Store V) : Trace source [] s s
  | tail {deeds : List Deed} {deed : Deed} {s s₁ s₂ : Store V} (trace : Trace source deeds s s₁)
      (does : Does source deed s₁ s₂) : Trace source (deeds ++ [deed]) s s₂

theorem Trace.trans (h : Trace source deeds s s₁) (h' : Trace source later s₁ s') :
    Trace source (deeds ++ later) s s' := by
  induction h' with
  | refl => rwa [List.append_nil]
  | tail _ does ih =>
    rw [← List.append_assoc]
    exact (ih h).tail does

/-- What every deed keeps, looking back on all deeds before it, a trace keeps. -/
theorem Trace.induction {P : List Deed → Store V → Prop}
    (step : ∀ before deed s s', P before s → Does source deed s s' → P (before ++ [deed]) s')
    (h : Trace source deeds s s') {before : List Deed} (start : P before s) :
    P (before ++ deeds) s' := by
  induction h with
  | refl => rwa [List.append_nil]
  | tail _ does ih =>
    rw [← List.append_assoc]
    exact step _ _ _ _ (ih start) does

theorem Does.full (hd : Does source deed s s') (h : s.tree.Full) : s'.tree.Full := by
  cases hd with
  | ask => exact h
  | hit => exact h
  | plant hempty => exact .inr ⟨_, fullUnder_planted hempty _⟩
  | compute => exact h
  | grow hroot => exact .inr ⟨_, hroot.grown⟩
  | split hnode hl =>
    obtain ⟨root, hroot⟩ := h.exists_fullUnder (contains_of_find? hnode)
    exact .inr ⟨root, (fullUnder_split source hroot (contains_of_find? hnode) hl _ _).1⟩

theorem Trace.full (ht : Trace source deeds s s') (h : s.tree.Full) : s'.tree.Full := by
  induction ht with
  | refl => exact h
  | tail _ does ih => exact does.full (ih h)

/-! ### Work that keeps a property -/

/-- However the work ends, what held of the store before holds of the store after. -/
def Keeps (P : Store V → Prop) (x : Work V α) : Prop :=
  ∀ s, P s → Ends x s (fun _ => P) (fun _ => P)

variable {P : Store V → Prop} {x : Work V α} {f : α → Work V β}

theorem Keeps.bind (hx : Keeps P x) (hf : ∀ a, Keeps P (f a)) : Keeps P (x >>= f) :=
  fun s h => (hx s h).bind fun a s' h' => hf a s' h'

theorem Keeps.pure (a : α) : Keeps P (Pure.pure a : Work V α) :=
  fun _ h => h

theorem Keeps.throw (failure : Failure) :
    Keeps P (MonadExcept.throw failure : Work V α) :=
  fun _ h => h

theorem Keeps.tree : Keeps P (tree : Work V (Tree V)) :=
  fun _ h => h

theorem Keeps.searched (key : DyadicInterval) : Keeps P (searched key : Work V (Tree V)) :=
  fun _ h => h

theorem Keeps.orFault (r : Except Fault α) : Keeps P (orFault r : Work V α) := by
  cases r with
  | ok a => exact .pure a
  | error fault => exact .throw _

theorem Keeps.orError (r : Except Error α) : Keeps P (orError r : Work V α) := by
  cases r with
  | ok a => exact .pure a
  | error error => exact .throw _

theorem Keeps.orMissing (fault : Fault) (a? : Option α) :
    Keeps P (orMissing fault a? : Work V α) := by
  cases a? with
  | some a => exact .pure a
  | none => exact .throw _

theorem Keeps.isLeaf (key : DyadicInterval) : Keeps P (isLeaf key : Work V Bool) :=
  .bind (.orFault _) fun left => .bind (.searched left) fun _ => .pure _

theorem Keeps.advance (c : Cursor) : Keeps P (advance c : Work V Cursor) := by
  intro s h
  rwa [ends_of_ok (advance_run c s)]

theorem Keeps.skip (c : Cursor) : Keeps P (skip c : Work V Cursor) := by
  intro s h
  rw [ends_congr (skip_run c s)]
  exact Keeps.orFault _ s h

theorem Keeps.ite {c : Prop} [Decidable c] {y : Work V α} (hx : Keeps P x) (hy : Keeps P y) :
    Keeps P (if c then x else y) := by
  split
  · exact hx
  · exact hy

theorem Keeps.mapM {l : List α} (hf : ∀ a ∈ l, Keeps P (f a)) : Keeps P (l.mapM f) := by
  induction l with
  | nil => exact .pure []
  | cons a l ih =>
    rw [List.mapM_cons]
    apply (hf a List.mem_cons_self).bind
    intro b
    apply (ih fun a' ha' => hf a' (List.mem_cons_of_mem a ha')).bind
    exact fun bs => .pure _

/-! ### The parts of a query -/

/-- The property holds of full trees only, and every deed keeps it. -/
structure Lasting (source : Source V) (P : Store V → Prop) : Prop where
  full : ∀ {s}, P s → s.tree.Full
  does : ∀ {deed s s'}, P s → Does source deed s s' → P s'

section Parts

variable (lasting : Lasting source P)

include lasting

theorem Keeps.splitLeaf (leaf : DyadicInterval) : Keeps P (splitLeaf source leaf) := by
  intro s h
  by_cases hsplit : s.tree.contains leaf = true ∧ s.tree.contains leaf.left = false
  · obtain ⟨hleaf, hl⟩ := hsplit
    obtain ⟨node, hnode⟩ := exists_find?_of_contains hleaf
    obtain ⟨root, hroot⟩ := (lasting.full h).exists_fullUnder hleaf
    rw [Ends, splitLeaf_run source hroot hnode hl]
    cases leaf.left? with
    | error fault => exact h
    | ok left =>
      dsimp only
      cases hv : source.split s.tree.size node.value leaf.left leaf.right with
      | error error => exact h
      | ok values => exact ends_of_final (lasting.does h (.split hnode hl hv))
  · rw [Work.splitLeaf, Ends, bind_congr_run (isLeaf_run s leaf)]
    rcases s.tree.isLeaf?_cases leaf with ⟨fault, -, hq⟩ | ⟨-, hq⟩
    · rw [hq]
      exact h
    · rw [hq, bind_of_ok (orFault_ok _ s)]
      cases hl : s.tree.contains leaf.left with
      | true => exact h
      | false =>
        cases hnode : s.tree.find? leaf with
        | none =>
          simp only [Bool.not_false, Bool.not_true, Bool.false_eq_true, if_false]
          rw [bind_of_ok (searched_run s leaf), hnode]
          exact h
        | some node => exact absurd ⟨contains_of_find? hnode, hl⟩ hsplit

theorem Keeps.descend (root I : DyadicInterval) : Keeps P (descend source root I) := by
  rw [Work.descend]
  induction (I.power - root.power).toNat with
  | zero => exact .pure ()
  | succ levels ih =>
    refine .bind (.isLeaf _) fun leaf => ?_
    exact .ite (.bind (.splitLeaf lasting _) fun _ => ih) ih

theorem Keeps.sharpenAt (policy : Policy) (desired : Int) (cursor : Cursor)
    (key : DyadicInterval) : Keeps P (sharpenAt policy source desired cursor key) := by
  refine .bind (.searched key) fun t => .bind (.orMissing _ _) fun accuracy => ?_
  refine .bind (.isLeaf key) fun leaf => ?_
  apply Keeps.ite
  · exact .ite (.skip cursor) (.advance cursor)
  · refine .ite ?_ (.advance cursor)
    exact .bind (.splitLeaf lasting key) fun _ => .bind (.orFault _) fun left => .pure _

theorem Keeps.sharpenFrom (policy : Policy) (desired : Int) (keys : Nat) (cursor : Cursor) :
    Keeps P (sharpenFrom policy source desired keys cursor) := by
  induction keys generalizing cursor with
  | zero => exact .throw _
  | succ keys ih =>
    rw [Work.sharpenFrom]
    split
    · next key _ => exact .bind (.sharpenAt lasting policy desired cursor key) ih
    · exact .pure ()

theorem Keeps.sharpen (policy : Policy) (top : DyadicInterval) (desired : Int) :
    Keeps P (sharpen policy source top desired) := by
  refine .bind .tree fun t => .bind (.sharpenFrom lasting policy desired _ _) fun _ => ?_
  exact .bind (.searched top) fun t' => .ite (.throw _) (.pure ())

/-- Growing is not known to be a deed unless the tree is full under the root that grows. -/
theorem growRoot_keeps {root : DyadicInterval} (hroot : s.tree.FullUnder root) (h : P s) :
    Ends (growRoot source root) s (fun _ => P) (fun _ => P) := by
  obtain ⟨node, hnode⟩ := exists_find?_of_contains hroot.contains_root
  have hrun := growRoot_run source hroot hnode
  rcases parent?_cases root with hp | hp
  · simp only [hp] at hrun
    rwa [ends_of_error hrun]
  · cases hv : source.fresh s.tree.size root.sibling with
    | error error =>
      simp only [hp, hv] at hrun
      rwa [ends_of_error hrun]
    | ok neighbourValue =>
      cases hc : source.combine s.tree.size node.value neighbourValue root.half with
      | error fault =>
        simp only [hp, hv, hc] at hrun
        rw [ends_of_error hrun]
        exact lasting.does h (.compute hroot hnode hv hc)
      | ok value =>
        simp only [hp, hv, hc] at hrun
        rw [ends_of_ok hrun]
        exact lasting.does h (.grow hroot hnode hv hc)

theorem growToContain_keeps {root I : DyadicInterval} (side : SameSide root I)
    (hroot : s.tree.FullUnder root) (h : P s) :
    Ends (growToContain source root I side) s (fun _ => P) (fun _ => P) := by
  induction hd : distance root I using Nat.strong_induction_on generalizing root s with
  | _ d ih =>
    cases hc : root.contains I with
    | true =>
      rw [growToContain_done source side hc]
      exact h
    | false =>
      rw [growToContain_next source side hc]
      have hlt := distance_parent_lt side hc
      -- The resolution of the moves does not matter here.
      refine ((growRoot_ends 0 hroot side hc).and (growRoot_keeps lasting hroot h)).mono
        (fun _ _ => id) (fun _ _ hend => hend.2) |>.bind ?_
      rintro _ s₁ ⟨⟨-, hfull⟩, h₁⟩
      exact ih _ (hd ▸ hlt) side.parent hfull h₁ rfl

theorem Keeps.reach (policy : Policy) (I : DyadicInterval) (resolution : Int) :
    Keeps P (reach policy source I resolution) := by
  intro s h
  rcases lasting.full h with hempty | ⟨root, hroot⟩
  · rw [ends_congr (reach_empty policy source I resolution hempty)]
    have hplant : Ends (plant source I) s (fun _ => P) (fun _ => P) := by
      have hrun := plant_run source I hempty
      cases hv : source.fresh s.tree.size I with
      | error error =>
        rw [hv] at hrun
        rwa [ends_of_error hrun]
      | ok value =>
        rw [hv] at hrun
        rw [ends_of_ok hrun]
        exact lasting.does h (.plant hempty hv)
    exact hplant.bind fun _ => Keeps.ite (.sharpen lasting policy I resolution) (.pure ())
  · rw [ends_congr (reach_root policy source I resolution hroot)]
    have hgrow : Ends (grow source root I) s (fun _ => P) (fun _ => P) := by
      by_cases side : SameSide root I
      · rw [grow_sameSide source side]
        exact growToContain_keeps lasting side hroot h
      · rw [grow_unreachable source side]
        exact h
    exact hgrow.bind fun top => Keeps.bind (.descend lasting top I) fun _ =>
      .sharpen lasting policy I resolution

theorem Keeps.dyadicValue (policy : Policy) (I : DyadicInterval) (resolution : Int) :
    Keeps P (dyadicValue policy source I resolution) := by
  intro s h
  have hask := lasting.does h (.ask I s)
  have hstored : ∀ s, P s → Ends (stored I) s (fun _ => P) (fun _ => P) :=
    Keeps.bind (.searched I) fun t => .bind (.orMissing _ _) fun node => .pure _
  cases hallow : policy.allowInterval I resolution with
  | error error => rwa [ends_of_error (dyadicValue_refused source s hallow)]
  | ok _ =>
    cases found s I resolution with
    | absent hno =>
      rw [ends_congr (dyadicValue_absent source hallow hno)]
      exact Keeps.bind (.reach lasting policy I resolution) (fun _ => hstored) _ hask
    | accurate hnode hr =>
      rw [ends_of_ok (dyadicValue_hit source hallow hnode hr)]
      exact lasting.does h (.hit hnode)
    | coarse hnode hlt =>
      rw [ends_congr (dyadicValue_cached source hallow hnode hlt)]
      exact Keeps.bind (.sharpen lasting policy I resolution) (fun _ => hstored) _ hask

/-- What every deed keeps, every query keeps. -/
theorem Keeps.answer (policy : Policy) (dissection : Dissection) (query : Query)
    (resolution : Int) : Keeps P (answer policy dissection source query resolution) := by
  cases query with
  | dyadic I => exact .dyadicValue lasting policy I resolution
  | real I =>
    apply Keeps.ite (.bind .tree fun t => .pure _)
    refine .bind (.orError _) fun _ => .bind (.orError _) fun pieces => ?_
    exact .bind (.mapM fun piece _ => .dyadicValue lasting policy piece resolution) fun values =>
      .bind .tree fun t => .orFault _

end Parts

/-- A query has done a list of deeds, however it ends. -/
theorem exists_trace_of_answer (source : Source V) (policy : Policy) (dissection : Dissection)
    (query : Query) (resolution : Int) (h : s.tree.Full) :
    ∃ deeds, Trace source deeds s
      (final (answer policy dissection source query resolution) s) := by
  have lasting : Lasting source fun s' => s'.tree.Full ∧ ∃ deeds, Trace source deeds s s' :=
    { full := fun h => h.1
      does := fun ⟨hfull, deeds, ht⟩ hd => ⟨hd.full hfull, _, ht.tail hd⟩ }
  exact (Keeps.answer lasting policy dissection query resolution s ⟨h, [], .refl s⟩).final.2

end Work

namespace Cache

open Work

variable {V : Type} {cache : Cache V} {requests : List (Request V)} {deeds : List Deed}

/-- The deeds that a sequence of requests, answered or not, has done one after the other. -/
inductive History : Cache V → List (Request V) → List Deed → Prop
  | nil (cache : Cache V) : History cache [] []
  | cons {cache : Cache V} {request : Request V} {requests : List (Request V)}
      {deeds later : List Deed}
      (trace : Trace request.source deeds cache.store
        (cache.answer request.source request.query request.resolution).2.store)
      (rest : History (cache.answer request.source request.query request.resolution).2 requests
        later) : History cache (request :: requests) (deeds ++ later)

theorem exists_trace_of_request (cache : Cache V) (request : Request V)
    (h : cache.store.tree.Full) :
    ∃ deeds, Trace request.source deeds cache.store
      (cache.answer request.source request.query request.resolution).2.store := by
  rw [answer_snd]
  exact exists_trace_of_answer request.source cache.policy cache.dissection request.query
    request.resolution h

/-- Every sequence of requests has a history. -/
theorem exists_history (cache : Cache V) (requests : List (Request V))
    (h : cache.store.tree.Full) : ∃ deeds, History cache requests deeds := by
  induction requests generalizing cache with
  | nil => exact ⟨[], .nil cache⟩
  | cons request requests ih =>
    obtain ⟨deeds, htrace⟩ := exists_trace_of_request cache request h
    obtain ⟨later, hrest⟩ := ih _ (htrace.full h)
    exact ⟨deeds ++ later, .cons htrace hrest⟩

/-- What every deed of the requests keeps holds after all of them. -/
theorem History.induction {P : List Deed → Store V → Prop} (before : List Deed)
    (step : ∀ request ∈ requests, ∀ before deed s s', P before s →
      Does request.source deed s s' → P (before ++ [deed]) s')
    (h : History cache requests deeds) (start : P before cache.store) :
    P (before ++ deeds) (cache.after requests).store := by
  induction h generalizing before with
  | nil => rwa [List.append_nil]
  | @cons cache request requests deeds later trace rest ih =>
    rw [after_cons, ← List.append_assoc]
    apply ih _ fun request' hmem => step request' (List.mem_cons_of_mem _ hmem)
    exact trace.induction (step request List.mem_cons_self) start

end Cache

end SignatureCache
