import SignatureCache.Proofs.Cache.Service

/-!
# The errors of a query

Faults aside, a query past its checks only ends in an error if its source refuses a value, or if it
asks for an interval on the other side of zero. That is so in every store, whatever tree it holds:
no other error is ever thrown.
-/

namespace SignatureCache

open DyadicInterval

variable {V α β : Type}

/-- The errors that a query past its checks can end in. -/
def Source.Stops (source : Source V) (error : Error) : Prop :=
  source.Refuses error ∨ ∃ root target, error = .rootUnreachable root target

namespace Work

/-- If the work ends in an error, it is one with `E`. -/
def Raises (E : Error → Prop) (x : Work V α) : Prop :=
  ∀ s, Ends x s (fun _ _ => True) fun failure _ => ∀ error, failure = .error error → E error

variable {E : Error → Prop} {x : Work V α} {f : α → Work V β} {source : Source V}

theorem Raises.bind (hx : Raises E x) (hf : ∀ a, Raises E (f a)) : Raises E (x >>= f) :=
  fun s => (hx s).bind fun a s' _ => hf a s'

theorem Raises.pure (a : α) : Raises E (Pure.pure a : Work V α) :=
  fun _ => trivial

theorem Raises.fault (fault : Fault) : Raises E (MonadExcept.throw (.fault fault) : Work V α) := by
  intro s error h
  cases h

theorem Raises.error {error : Error} (h : E error) :
    Raises E (MonadExcept.throw (.error error) : Work V α) := by
  intro s error' h'
  cases h'
  exact h

theorem Raises.tree : Raises E (tree : Work V (Tree V)) :=
  fun _ => trivial

theorem Raises.count (change : Activity → Activity) : Raises E (count change : Work V Unit) :=
  fun _ => trivial

theorem Raises.edit (change : Edit V α) : Raises E (edit change) := by
  intro s
  rw [Ends, Work.edit]
  cases change s.tree with
  | ok a t => trivial
  | error fault t =>
    intro error h
    cases h

theorem Raises.searched (key : DyadicInterval) :
    Raises E (searched key : Work V (Tree V)) :=
  .edit _

theorem Raises.test (I J : DyadicInterval) : Raises E (test I J : Work V Unit) :=
  .edit _

theorem Raises.orFault (r : Except Fault α) : Raises E (orFault r : Work V α) := by
  cases r with
  | ok a => exact .pure a
  | error fault => exact .fault fault

theorem Raises.orMissing (fault : Fault) (a? : Option α) :
    Raises E (orMissing fault a? : Work V α) := by
  cases a? with
  | some a => exact .pure a
  | none => exact .fault fault

theorem Raises.orError {r : Except Error α} (h : ∀ error, r = .error error → E error) :
    Raises E (orError r : Work V α) := by
  cases r with
  | ok a => exact .pure a
  | error error => exact .error (h error rfl)

theorem Raises.ite {c : Prop} [Decidable c] {y : Work V α} (hx : Raises E x) (hy : Raises E y) :
    Raises E (if c then x else y) := by
  split
  · exact hx
  · exact hy

theorem Raises.mapM {l : List α} (hf : ∀ a ∈ l, Raises E (f a)) : Raises E (l.mapM f) := by
  induction l with
  | nil => exact .pure []
  | cons a l ih =>
    rw [List.mapM_cons]
    apply (hf a List.mem_cons_self).bind
    intro b
    apply (ih fun a' ha' => hf a' (List.mem_cons_of_mem a ha')).bind
    exact fun bs => .pure _

/-! ### The parts of a query -/

theorem Raises.isLeaf (key : DyadicInterval) : Raises E (isLeaf key : Work V Bool) :=
  .bind (.orFault _) fun left => .bind (.searched left) fun _ => .pure _

theorem Raises.bound (cursor : Cursor) (next? : Option DyadicInterval) :
    Raises E (bound cursor next? : Work V Unit) := by
  cases next? with
  | none => exact .pure ()
  | some next => exact .test cursor.top next

theorem Raises.advance (cursor : Cursor) : Raises E (advance cursor : Work V Cursor) :=
  .bind .tree fun _ => .bind (.bound cursor _) fun _ => .pure _

theorem Raises.skip (cursor : Cursor) : Raises E (skip cursor : Work V Cursor) := by
  unfold Work.skip
  cases cursor.current? with
  | none => exact .pure cursor
  | some key =>
    refine .bind (.orFault _) fun following => .bind (.searched following) fun t => ?_
    exact .bind (.bound cursor _) fun _ => .orFault _

theorem Raises.fresh (I : DyadicInterval) : Raises source.Stops (fresh source I) := by
  refine .bind .tree fun t => .bind (.orError ?_) fun value => .bind (.count _) fun _ => .pure value
  exact fun error h => .inl (.inl ⟨t.size, I, h⟩)

theorem Raises.plant (I : DyadicInterval) : Raises source.Stops (plant source I) :=
  .bind (.fresh I) fun _ => .edit _

theorem Raises.growRoot (root : DyadicInterval) : Raises source.Stops (growRoot source root) := by
  refine .bind (.orFault _) fun parent => .bind (.fresh root.sibling) fun value => ?_
  refine .bind (.searched root) fun t => .bind (.orMissing _ _) fun node => ?_
  exact .bind (.orFault _) fun total => .bind (.edit _) fun _ => .count _

theorem Raises.growToContain {root I : DyadicInterval} (side : SameSide root I) :
    Raises source.Stops (growToContain source root I side) := by
  induction hd : distance root I using Nat.strong_induction_on generalizing root with
  | _ d ih =>
    cases hc : root.contains I with
    | true =>
      rw [growToContain_done source side hc]
      exact .pure root
    | false =>
      rw [growToContain_next source side hc]
      have hlt := distance_parent_lt side hc
      exact .bind (.growRoot root) fun _ => ih _ (hd ▸ hlt) side.parent rfl

theorem Raises.grow (root I : DyadicInterval) : Raises source.Stops (grow source root I) := by
  rw [Work.grow]
  split
  · next side => exact .growToContain side
  · exact .error (.inr ⟨root, I, rfl⟩)

theorem Raises.improveParent (below : DyadicInterval) :
    Raises source.Stops (improveParent source below) := by
  refine .bind (.searched below) fun t => ?_
  cases t.find? below with
  | none => exact .pure none
  | some node =>
    cases hparent : node.parent? with
    | none =>
      simp only [hparent]
      exact .pure none
    | some parent =>
      simp only [hparent]
      refine .bind (.orMissing _ _) fun sibling => .bind (.searched sibling) fun t' => ?_
      refine .bind (.orMissing _ _) fun siblingNode => .bind (.searched parent) fun t'' => ?_
      refine .bind (.orMissing _ _) fun parentNode => .ite (.pure none) ?_
      refine .bind (.orFault _) fun value => .bind (.orFault _) fun improved => ?_
      exact .bind (.edit _) fun _ => .bind (.count _) fun _ => .pure (some parent)

theorem Raises.propagate (below : DyadicInterval) :
    Raises source.Stops (propagate source below) := by
  have hlevels : ∀ levels below, Raises source.Stops (propagateLevels source levels below) := by
    intro levels
    induction levels with
    | zero => exact fun below => .fault _
    | succ levels ih =>
      refine fun below => .bind (.improveParent below) fun parent? => ?_
      cases parent? with
      | none => exact .pure ()
      | some parent => exact ih parent
  refine .bind .tree fun t => ?_
  cases t.root? with
  | none => exact .pure ()
  | some root => exact hlevels _ below

theorem Raises.splitLeaf (leaf : DyadicInterval) : Raises source.Stops (splitLeaf source leaf) := by
  refine .bind (.isLeaf leaf) fun isLeaf => .ite (.fault _) ?_
  refine .bind (.searched leaf) fun t => .bind (.orMissing _ _) fun node => ?_
  refine .bind (.orFault _) fun left => .bind (.orFault _) fun right => ?_
  refine .bind (.orError fun error h => .inl (.inr ⟨_, _, _, _, h⟩)) fun values => ?_
  exact .bind (.edit _) fun _ => .bind (.count _) fun _ => .propagate left

theorem Raises.descend (root I : DyadicInterval) : Raises source.Stops (descend source root I) := by
  rw [Work.descend]
  induction (I.power - root.power).toNat with
  | zero => exact .pure ()
  | succ levels ih =>
    refine .bind (.isLeaf _) fun leaf => ?_
    exact .ite (.bind (.splitLeaf _) fun _ => ih) ih

theorem Raises.sharpen (policy : Policy) (top : DyadicInterval) (desired : Int) :
    Raises source.Stops (sharpen policy source top desired) := by
  have hat : ∀ cursor key, Raises source.Stops (sharpenAt policy source desired cursor key) := by
    intro cursor key
    refine .bind (.searched key) fun t => .bind (.orMissing _ _) fun accuracy => ?_
    refine .bind (.isLeaf key) fun leaf => .ite (.ite (.skip cursor) (.advance cursor)) ?_
    refine .ite (.bind (.splitLeaf key) fun _ => ?_) (.advance cursor)
    exact .bind (.orFault _) fun left => .pure _
  have hfrom : ∀ keys cursor,
      Raises source.Stops (sharpenFrom policy source desired keys cursor) := by
    intro keys
    induction keys with
    | zero => exact fun cursor => .fault _
    | succ keys ih =>
      intro cursor
      rw [sharpenFrom]
      split
      · next key _ => exact .bind (hat cursor key) ih
      · exact .pure ()
  refine .bind .tree fun t => .bind (hfrom _ _) fun _ => ?_
  exact .bind (.searched top) fun t' => .ite (.fault _) (.pure ())

theorem Raises.reach (policy : Policy) (I : DyadicInterval) (resolution : Int) :
    Raises source.Stops (reach policy source I resolution) := by
  refine .bind .tree fun t => ?_
  cases t.root? with
  | none => exact .bind (.plant I) fun _ => .ite (.sharpen policy I resolution) (.pure ())
  | some root =>
    refine .bind (.grow root I) fun top => .bind (.descend top I) fun _ => ?_
    exact .sharpen policy I resolution

/-- A query for an interval that is accepted stops at its source or at zero, or not at all. -/
theorem Raises.dyadicValue {policy : Policy} {I : DyadicInterval} {resolution : Int}
    (hallow : policy.allowInterval I resolution = .ok ()) :
    Raises source.Stops (dyadicValue policy source I resolution) := by
  have hstored : Raises source.Stops (stored I : Work V V) :=
    .bind (.searched I) fun t => .bind (.orMissing _ _) fun node => .pure node.value
  refine .bind (.orError fun error h => ?_) fun _ => .bind (.count _) fun _ => ?_
  · cases hallow.symm.trans h
  · refine .bind (.searched I) fun t => ?_
    cases t.accuracy? I with
    | none => exact .bind (.reach policy I resolution) fun _ => hstored
    | some accuracy =>
      dsimp only
      split
      · exact .bind (.count _) fun _ => hstored
      · exact .bind (.sharpen policy I resolution) fun _ => hstored

/-- A query for a real interval whose pieces are all accepted stops at a piece, or its resolution is
refused, or the interval is not dissected. -/
theorem Raises.realValue {policy : Policy} {dissection : Dissection} {I : RealInterval}
    {resolution : Int}
    (hallow : ∀ pieces, policy.allow resolution = .ok () → dissection I resolution = .ok pieces →
      ∀ J ∈ pieces, policy.allowInterval J resolution = .ok ()) :
    Raises (fun error => policy.allow resolution = .error error ∨
      dissection I resolution = .error error ∨ source.Stops error)
      (realValue policy dissection source I resolution) := by
  intro s
  cases hempty : I.isEmpty with
  | true =>
    rw [ends_of_ok (realValue_empty policy dissection source resolution s hempty)]
    trivial
  | false =>
    cases hlimit : policy.allow resolution with
    | error error =>
      rw [ends_of_error (realValue_refused dissection source s hempty hlimit)]
      rintro _ ⟨⟩
      exact .inl rfl
    | ok _ =>
      cases hpieces : dissection I resolution with
      | error error =>
        rw [ends_of_error (realValue_undissected source s hempty hlimit hpieces)]
        rintro _ ⟨⟩
        exact .inr (.inl rfl)
      | ok pieces =>
        rw [ends_congr (realValue_of_pieces source s hempty hlimit hpieces)]
        have hvalues : Raises source.Stops
            (pieces.mapM fun piece => Work.dyadicValue policy source piece resolution) :=
          .mapM fun J hJ => .dyadicValue (hallow pieces hlimit hpieces J hJ)
        apply ((hvalues.bind fun values => .bind .tree fun t =>
          .orFault (source.combineAll t.size values)) s).mono
        · exact fun _ _ _ => trivial
        · exact fun failure _ hstops error h => .inr (.inr (hstops error h))

end Work

end SignatureCache
