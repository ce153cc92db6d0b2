import SignatureCache.Proofs.Cache.Requests

/-!
# Runs that mirror each other

Two sources may agree except that one of them fails where the other goes on. A query then does the
same with both, as long as the first one does not fail in this way. Nor does a query look at how
many were asked before it, or at the shelf its tree is kept on, as long as no search breaks off.
All this is one statement here: a run mirrors another one that starts with the tree on its own, with
more queries counted, and takes the other source. It passes through every step of a query.
-/

namespace SignatureCache

variable {V τ : Type} [Shelf V τ]

/-- The store with more queries counted. -/
def Store.later (s : Store V) (queries : Nat) : Store V where
  tree := s.tree
  activity := { s.activity with queries := s.activity.queries + queries }

/-- Where the first source does not fail in a way of `E`, both give the same. -/
structure Source.Agrees (E : Failure → Prop) (source' source : Source V) : Prop where
  fresh : ∀ nodes I, source'.fresh nodes I = source.fresh nodes I ∨
    ∃ error, source'.fresh nodes I = .error error ∧ E (.error error)
  combine : ∀ nodes a b half, source'.combine nodes a b half = source.combine nodes a b half ∨
    ∃ fault, source'.combine nodes a b half = .error fault ∧ E (.fault fault)
  split : ∀ nodes value left right,
    source'.split nodes value left right = source.split nodes value left right ∨
      ∃ error, source'.split nodes value left right = .error error ∧ E (.error error)

theorem Source.Agrees.refl (E : Failure → Prop) (source : Source V) : source.Agrees E source :=
  ⟨fun _ _ => .inl rfl, fun _ _ _ _ => .inl rfl, fun _ _ _ _ => .inl rfl⟩

/-- Where searches and tests on a shelf break off, this is a failure of `E`. -/
class Shelf.Excused (τ : Type) [Shelf V τ] (E : Failure → Prop) : Prop where
  search : ∀ {t : τ} {key fault}, Shelf.search t key = .error fault → E (.fault fault)
  test : ∀ {t : τ} {I J fault}, Shelf.test t I J = .error fault → E (.fault fault)

instance (E : Failure → Prop) : Shelf.Excused (Tree V) E where
  search h := nomatch h
  test h := nomatch h

/-! ### Programs on two kinds of states -/

section

variable {ε σ σ' α β : Type} {p : σ' → σ} {E : ε → Prop} {x' : EStateM ε σ' α} {x : EStateM ε σ α}
  {f' : α → EStateM ε σ' β} {f : α → EStateM ε σ β}

/-- The first program ends as the second one does from the state that `p` makes of its own, unless
the first one fails in a way of `E`. -/
def EndsAs (p : σ' → σ) (E : ε → Prop) (x' : EStateM ε σ' α) (x : EStateM ε σ α) : Prop :=
  ∀ s, match x' s with
    | .ok a s' => x (p s) = .ok a (p s')
    | .error error s' => E error ∨ x (p s) = .error error (p s')

theorem EndsAs.ok {a : α} {s s' : σ'} (h : EndsAs p E x' x) (hrun : x' s = .ok a s') :
    x (p s) = .ok a (p s') := by
  have hs := h s
  rwa [hrun] at hs

theorem EndsAs.error {error : ε} {s s' : σ'} (h : EndsAs p E x' x)
    (hrun : x' s = .error error s') (hE : ¬ E error) : x (p s) = .error error (p s') := by
  have hs := h s
  rw [hrun] at hs
  exact hs.resolve_left hE

theorem EndsAs.bind (h : EndsAs p E x' x) (hf : ∀ a, EndsAs p E (f' a) (f a)) :
    EndsAs p E (x' >>= f') (x >>= f) := by
  intro s
  have hs := h s
  cases hrun : x' s with
  | ok a s' =>
    rw [hrun] at hs
    rw [bind_of_ok hrun, bind_of_ok hs]
    exact hf a s'
  | error error s' =>
    rw [hrun] at hs
    rw [bind_of_error hrun]
    exact hs.imp_right bind_of_error

theorem EndsAs.pure (a : α) :
    EndsAs p E (Pure.pure a : EStateM ε σ' α) (Pure.pure a : EStateM ε σ α) :=
  fun _ => rfl

theorem EndsAs.throw (error : ε) :
    EndsAs p E (MonadExcept.throw error : EStateM ε σ' α)
      (MonadExcept.throw error : EStateM ε σ α) :=
  fun _ => .inr rfl

theorem EndsAs.throw_bind (error : ε) :
    EndsAs p E ((MonadExcept.throw error : EStateM ε σ' α) >>= f')
      ((MonadExcept.throw error : EStateM ε σ α) >>= f) :=
  fun _ => .inr rfl

theorem EndsAs.mapM {l : List α} (hf : ∀ a ∈ l, EndsAs p E (f' a) (f a)) :
    EndsAs p E (l.mapM f') (l.mapM f) := by
  induction l with
  | nil => exact .pure []
  | cons a l ih =>
    rw [List.mapM_cons, List.mapM_cons]
    refine .bind (hf a List.mem_cons_self) fun b => ?_
    exact .bind (ih fun a' ha' => hf a' (List.mem_cons_of_mem a ha')) fun bs => .pure (b :: bs)

end

/-! ### Edits -/

namespace Tree

variable {α : Type} {E : Failure → Prop}

/-- The edit of a shelf ends as the one of its tree does, unless it fails in a way of `E`. -/
abbrev Mirrors (E : Failure → Prop) (x' : EditOn τ α) (x : Edit V α) : Prop :=
  EndsAs Shelf.tree (fun fault => E (.fault fault)) x' x

theorem Mirrors.putNode (key : DyadicInterval) (node : Node V) :
    Mirrors E (putNode key node : EditOn τ Unit) (putNode key node) := by
  intro t
  change EStateM.Result.ok () _ = EStateM.Result.ok () _
  rw [Shelf.tree_put t key node]
  rfl

variable [Shelf.Excused τ E]

theorem Mirrors.searched (key : DyadicInterval) :
    Mirrors E (searched key : EditOn τ (Tree V)) (searched key) := by
  intro t
  rw [Tree.searched]
  cases h : Shelf.search t key with
  | ok _ => rfl
  | error fault => exact .inl (Shelf.Excused.search h)

theorem Mirrors.test (I J : DyadicInterval) :
    Mirrors E (test I J : EditOn τ Unit) (test I J : Edit V Unit) := by
  intro t
  rw [Tree.test]
  cases h : Shelf.test t I J with
  | ok _ => rfl
  | error fault => exact .inl (Shelf.Excused.test h)

theorem Mirrors.insert (key : DyadicInterval) (node : Node V) :
    Mirrors E (insert key node : EditOn τ Unit) (insert key node) := by
  refine .bind (Mirrors.searched key) fun t => .bind (Mirrors.putNode key node) fun _ => ?_
  split
  · exact .throw _
  · exact .pure ()

theorem Mirrors.linkNode (key parent sibling : DyadicInterval) :
    Mirrors E (linkNode key parent sibling : EditOn τ Unit) (linkNode key parent sibling) := by
  refine .bind (Mirrors.searched key) fun t => ?_
  cases t.find? key with
  | some node => exact Mirrors.putNode key _
  | none => exact .throw _

theorem Mirrors.covers (I J : DyadicInterval) :
    Mirrors E (covers I J : EditOn τ Bool) (covers I J : Edit V Bool) :=
  .bind (Mirrors.test I J) fun _ => .pure _

theorem Mirrors.canLink (parent left right : DyadicInterval) :
    Mirrors E (canLink parent left right : EditOn τ Bool) (canLink parent left right) := by
  refine .bind (Mirrors.searched parent) fun t => ?_
  split
  · exact .pure false
  · refine .bind (Mirrors.covers parent left) fun inside => ?_
    split
    · exact .pure false
    · exact Mirrors.covers parent right

theorem Mirrors.linkHalves (parent left right : DyadicInterval) :
    Mirrors E (linkHalves parent left right : EditOn τ Unit) (linkHalves parent left right) := by
  refine .bind (Mirrors.canLink parent left right) fun can => ?_
  split
  · exact .throw_bind _
  · exact .bind (Mirrors.linkNode left parent right) fun _ => Mirrors.linkNode right parent left

theorem Mirrors.insertHalves (parent left right : DyadicInterval) (leftValue rightValue : V) :
    Mirrors E (insertHalves parent left right leftValue rightValue : EditOn τ Unit)
      (insertHalves parent left right leftValue rightValue) :=
  .bind (Mirrors.insert left _) fun _ => .bind (Mirrors.insert right _) fun _ =>
    Mirrors.linkHalves parent left right

end Tree

namespace Work

open DyadicInterval

variable {α β : Type} {n : Nat} {E : Failure → Prop}

/-- With the tree on its own and more queries counted before it, the second work ends as the first
one does, unless the first one fails in a way of `E`. -/
abbrev Mirrors (n : Nat) (E : Failure → Prop) (x' : WorkOn V τ α) (x : Work V α) : Prop :=
  EndsAs (fun s => s.plain.later n) E x' x

theorem Mirrors.tree : Mirrors n E (tree : WorkOn V τ (Tree V)) tree :=
  fun _ => rfl

theorem Mirrors.edit {change' : EditOn τ α} {change : Edit V α}
    (h : Tree.Mirrors E change' change) : Mirrors n E (edit change') (edit change) := by
  intro s
  have hlater : (s.plain.later n).tree = Shelf.tree s.tree := rfl
  rw [Work.edit, Work.edit, hlater]
  cases hrun : change' s.tree with
  | ok a t =>
    rw [h.ok hrun]
    rfl
  | error fault t =>
    have hs := h s.tree
    rw [hrun] at hs
    refine hs.imp_right fun hchange => ?_
    rw [hchange]
    rfl

/-- A counter is changed the same however many queries there were. -/
theorem Mirrors.count {change : Activity → Activity}
    (h : ∀ a : Activity, change { a with queries := a.queries + n } =
      { change a with queries := (change a).queries + n }) :
    Mirrors n E (count change : WorkOn V τ Unit) (count change) := by
  intro s
  change EStateM.Result.ok () _ = EStateM.Result.ok () _
  congr 1
  exact congrArg (Store.mk (Shelf.tree s.tree)) (h s.activity)

theorem Mirrors.orFault {r' r : Except Fault α}
    (h : r' = r ∨ ∃ fault, r' = .error fault ∧ E (.fault fault)) :
    Mirrors n E (orFault r' : WorkOn V τ α) (orFault r) := by
  rcases h with rfl | ⟨fault, rfl, hE⟩
  · cases r' with
    | ok a => exact fun _ => rfl
    | error fault => exact fun _ => .inr rfl
  · exact fun _ => .inl hE

theorem Mirrors.orError {r' r : Except Error α}
    (h : r' = r ∨ ∃ error, r' = .error error ∧ E (.error error)) :
    Mirrors n E (orError r' : WorkOn V τ α) (orError r) := by
  rcases h with rfl | ⟨error, rfl, hE⟩
  · cases r' with
    | ok a => exact fun _ => rfl
    | error error => exact fun _ => .inr rfl
  · exact fun _ => .inl hE

theorem Mirrors.orMissing (fault : Fault) (a? : Option α) :
    Mirrors n E (orMissing fault a? : WorkOn V τ α) (orMissing fault a?) := by
  cases a? with
  | some a => exact fun _ => rfl
  | none => exact fun _ => .inr rfl

/-! ### The parts of a query -/

theorem Mirrors.fresh {source source' : Source V} (h : source'.Agrees E source)
    (I : DyadicInterval) : Mirrors n E (fresh source' I : WorkOn V τ V) (fresh source I) := by
  refine .bind Mirrors.tree fun t => .bind (Mirrors.orError (h.fresh t.size I)) fun value => ?_
  exact .bind (Mirrors.count fun _ => rfl) fun _ => .pure value

section Parts

variable [Shelf.Excused τ E]

theorem Mirrors.searched (key : DyadicInterval) :
    Mirrors n E (searched key : WorkOn V τ (Tree V)) (searched key) :=
  Mirrors.edit (Tree.Mirrors.searched key)

theorem Mirrors.test (I J : DyadicInterval) :
    Mirrors n E (test I J : WorkOn V τ Unit) (test I J : Work V Unit) :=
  Mirrors.edit (Tree.Mirrors.test I J)

theorem Mirrors.isLeaf (key : DyadicInterval) :
    Mirrors n E (isLeaf key : WorkOn V τ Bool) (isLeaf key : Work V Bool) :=
  .bind (Mirrors.orFault (.inl rfl)) fun left => .bind (Mirrors.searched left) fun _ => .pure _

theorem Mirrors.bound (c : Cursor) (next? : Option DyadicInterval) :
    Mirrors n E (bound c next? : WorkOn V τ Unit) (bound c next? : Work V Unit) := by
  cases next? with
  | none => exact .pure ()
  | some next => exact Mirrors.test c.top next

theorem Mirrors.advance (c : Cursor) :
    Mirrors n E (advance c : WorkOn V τ Cursor) (advance c : Work V Cursor) :=
  .bind Mirrors.tree fun _ => .bind (Mirrors.bound c _) fun _ => .pure _

theorem Mirrors.skip (c : Cursor) :
    Mirrors n E (skip c : WorkOn V τ Cursor) (skip c : Work V Cursor) := by
  unfold Work.skip
  cases c.current? with
  | none => exact .pure c
  | some key =>
    refine .bind (Mirrors.orFault (.inl rfl)) fun following => ?_
    refine .bind (Mirrors.searched following) fun _ => ?_
    exact .bind (Mirrors.bound c _) fun _ => Mirrors.orFault (.inl rfl)

theorem Mirrors.stored (I : DyadicInterval) :
    Mirrors n E (stored I : WorkOn V τ V) (stored I) :=
  .bind (Mirrors.searched I) fun _ => .bind (Mirrors.orMissing _ _) fun node => .pure node.value

variable {source source' : Source V} (h : source'.Agrees E source)

include h

theorem Mirrors.plant (I : DyadicInterval) :
    Mirrors n E (plant source' I : WorkOn V τ Unit) (plant source I) :=
  .bind (Mirrors.fresh h I) fun _ => Mirrors.edit (Tree.Mirrors.insert I _)

theorem Mirrors.growRoot (root : DyadicInterval) :
    Mirrors n E (growRoot source' root : WorkOn V τ Unit) (growRoot source root) := by
  refine .bind (Mirrors.orFault (.inl rfl)) fun parent => ?_
  refine .bind (Mirrors.fresh h root.sibling) fun value => ?_
  refine .bind (Mirrors.searched root) fun t => .bind (Mirrors.orMissing _ _) fun node => ?_
  refine .bind (Mirrors.orFault (h.combine _ _ _ _)) fun total => ?_
  refine .bind (Mirrors.edit ?_) fun _ => Mirrors.count fun _ => rfl
  refine .bind (Tree.Mirrors.insert root.sibling _) fun _ => ?_
  refine .bind (Tree.Mirrors.insert parent _) fun _ => ?_
  cases root.half with
  | left => exact Tree.Mirrors.linkHalves parent root root.sibling
  | right => exact Tree.Mirrors.linkHalves parent root.sibling root

theorem Mirrors.growToContain {root I : DyadicInterval} (side : SameSide root I) :
    Mirrors n E (growToContain source' root I side : WorkOn V τ DyadicInterval)
      (growToContain source root I side) := by
  induction hd : distance root I using Nat.strong_induction_on generalizing root with
  | _ d ih =>
    unfold Work.growToContain
    refine .bind (Mirrors.test root I) fun _ => ?_
    cases hc : root.contains I with
    | true => exact .pure root
    | false =>
      have hlt := distance_parent_lt side hc
      exact .bind (Mirrors.growRoot h root) fun _ => ih _ (hd ▸ hlt) side.parent rfl

theorem Mirrors.grow (root I : DyadicInterval) :
    Mirrors n E (grow source' root I : WorkOn V τ DyadicInterval) (grow source root I) := by
  rw [Work.grow, Work.grow]
  split
  · next side => exact Mirrors.growToContain h side
  · exact .throw _

theorem Mirrors.improveParent (below : DyadicInterval) :
    Mirrors n E (improveParent source' below : WorkOn V τ (Option DyadicInterval))
      (improveParent source below) := by
  refine .bind (Mirrors.searched below) fun t => ?_
  cases t.find? below with
  | none => exact .pure none
  | some node =>
    cases hparent : node.parent? with
    | none =>
      simp only [hparent]
      exact .pure none
    | some parent =>
      simp only [hparent]
      refine .bind (Mirrors.orMissing _ _) fun sibling => ?_
      refine .bind (Mirrors.searched sibling) fun t' => ?_
      refine .bind (Mirrors.orMissing _ _) fun siblingNode => ?_
      refine .bind (Mirrors.searched parent) fun t'' => ?_
      refine .bind (Mirrors.orMissing _ _) fun parentNode => ?_
      split
      · exact .pure none
      · refine .bind (Mirrors.orFault (h.combine _ _ _ _)) fun value => ?_
        refine .bind (Mirrors.orFault (.inl rfl)) fun improved => ?_
        refine .bind (Mirrors.edit (Tree.Mirrors.putNode parent improved)) fun _ => ?_
        exact .bind (Mirrors.count fun _ => rfl) fun _ => .pure (some parent)

theorem Mirrors.propagateLevels (levels : Nat) (below : DyadicInterval) :
    Mirrors n E (propagateLevels source' levels below : WorkOn V τ Unit)
      (propagateLevels source levels below) := by
  induction levels generalizing below with
  | zero => exact .throw _
  | succ levels ih =>
    refine .bind (Mirrors.improveParent h below) fun parent? => ?_
    cases parent? with
    | none => exact .pure ()
    | some parent => exact ih parent

theorem Mirrors.propagate (below : DyadicInterval) :
    Mirrors n E (propagate source' below : WorkOn V τ Unit) (propagate source below) := by
  refine .bind Mirrors.tree fun t => ?_
  cases t.root? with
  | none => exact .pure ()
  | some root => exact Mirrors.propagateLevels h _ below

theorem Mirrors.splitLeaf (leaf : DyadicInterval) :
    Mirrors n E (splitLeaf source' leaf : WorkOn V τ Unit) (splitLeaf source leaf) := by
  refine .bind (Mirrors.isLeaf leaf) fun isLeaf => ?_
  split
  · exact .throw_bind _
  · refine .bind (Mirrors.searched leaf) fun t => .bind (Mirrors.orMissing _ _) fun node => ?_
    refine .bind (Mirrors.orFault (.inl rfl)) fun left => ?_
    refine .bind (Mirrors.orFault (.inl rfl)) fun right => ?_
    refine .bind (Mirrors.orError (h.split _ _ _ _)) fun values => ?_
    refine .bind (Mirrors.edit (Tree.Mirrors.insertHalves leaf left right _ _)) fun _ => ?_
    exact .bind (Mirrors.count fun _ => rfl) fun _ => Mirrors.propagate h left

theorem Mirrors.descendLevels (I : DyadicInterval) (levels : Nat) :
    Mirrors n E (descendLevels source' I levels : WorkOn V τ Unit)
      (descendLevels source I levels) := by
  induction levels with
  | zero => exact .pure ()
  | succ levels ih =>
    refine .bind (Mirrors.isLeaf _) fun leaf => ?_
    split
    · exact .bind (Mirrors.splitLeaf h _) fun _ => ih
    · exact ih

theorem Mirrors.descend (root I : DyadicInterval) :
    Mirrors n E (descend source' root I : WorkOn V τ Unit) (descend source root I) :=
  Mirrors.descendLevels h I _

theorem Mirrors.sharpenAt (policy : Policy) (desired : Int) (cursor : Cursor)
    (key : DyadicInterval) :
    Mirrors n E (sharpenAt policy source' desired cursor key : WorkOn V τ Cursor)
      (sharpenAt policy source desired cursor key) := by
  refine .bind (Mirrors.searched key) fun t => .bind (Mirrors.orMissing _ _) fun accuracy => ?_
  refine .bind (Mirrors.isLeaf key) fun leaf => ?_
  split
  · split
    · exact Mirrors.skip cursor
    · exact Mirrors.advance cursor
  · split
    · refine .bind (Mirrors.splitLeaf h key) fun _ => ?_
      exact .bind (Mirrors.orFault (.inl rfl)) fun left => .pure _
    · exact Mirrors.advance cursor

theorem Mirrors.sharpenFrom (policy : Policy) (desired : Int) (keys : Nat) (cursor : Cursor) :
    Mirrors n E (sharpenFrom policy source' desired keys cursor : WorkOn V τ Unit)
      (sharpenFrom policy source desired keys cursor) := by
  induction keys generalizing cursor with
  | zero => exact .throw _
  | succ keys ih =>
    rw [Work.sharpenFrom, Work.sharpenFrom]
    split
    · next key _ => exact .bind (Mirrors.sharpenAt h policy desired cursor key) ih
    · exact .pure ()

theorem Mirrors.sharpen (policy : Policy) (top : DyadicInterval) (desired : Int) :
    Mirrors n E (sharpen policy source' top desired : WorkOn V τ Unit)
      (sharpen policy source top desired) := by
  refine .bind Mirrors.tree fun t => .bind (Mirrors.sharpenFrom h policy desired _ _) fun _ => ?_
  refine .bind (Mirrors.searched top) fun t' => ?_
  split
  · exact .throw _
  · exact .pure ()

theorem Mirrors.reach (policy : Policy) (I : DyadicInterval) (resolution : Int) :
    Mirrors n E (reach policy source' I resolution : WorkOn V τ Unit)
      (reach policy source I resolution) := by
  refine .bind Mirrors.tree fun t => ?_
  cases t.root? with
  | none =>
    refine .bind (Mirrors.plant h I) fun _ => ?_
    split
    · exact Mirrors.sharpen h policy I resolution
    · exact .pure ()
  | some root =>
    refine .bind (Mirrors.grow h root I) fun top => .bind (Mirrors.descend h top I) fun _ => ?_
    exact Mirrors.sharpen h policy I resolution

/-- Queries for an interval with sources that agree mirror each other. -/
theorem Mirrors.dyadicValue (policy : Policy) (I : DyadicInterval) (resolution : Int) :
    Mirrors n E (dyadicValue policy source' I resolution : WorkOn V τ V)
      (dyadicValue policy source I resolution) := by
  refine .bind (Mirrors.orError (.inl rfl)) fun _ => .bind (Mirrors.count ?_) fun _ => ?_
  · intro a
    rw [Nat.add_right_comm]
  refine .bind (Mirrors.searched I) fun t => ?_
  cases t.accuracy? I with
  | none => exact .bind (Mirrors.reach h policy I resolution) fun _ => Mirrors.stored I
  | some accuracy =>
    dsimp only
    split
    · exact .bind (Mirrors.count fun _ => rfl) fun _ => Mirrors.stored I
    · exact .bind (Mirrors.sharpen h policy I resolution) fun _ => Mirrors.stored I

omit h

theorem Mirrors.realValue (policy : Policy) (dissection : Dissection) (source : Source V)
    (I : RealInterval) (resolution : Int) :
    Mirrors n E (realValue policy dissection source I resolution : WorkOn V τ V)
      (realValue policy dissection source I resolution) := by
  unfold Work.realValue
  split
  · exact .bind Mirrors.tree fun t => .pure (source.zero t.size)
  · refine .bind (Mirrors.orError (.inl rfl)) fun _ => ?_
    refine .bind (Mirrors.orError (.inl rfl)) fun pieces => ?_
    refine .bind (.mapM fun piece _ => Mirrors.dyadicValue (.refl E source) policy piece _) ?_
    exact fun values => .bind Mirrors.tree fun t => Mirrors.orFault (.inl rfl)

theorem Mirrors.answer (policy : Policy) (dissection : Dissection) (source : Source V)
    (query : Query) (resolution : Int) :
    Mirrors n E (answer policy dissection source query resolution : WorkOn V τ V)
      (answer policy dissection source query resolution) :=
  match query with
  | .dyadic I => Mirrors.dyadicValue (.refl E source) policy I resolution
  | .real I => Mirrors.realValue policy dissection source I resolution

end Parts

end Work

end SignatureCache
