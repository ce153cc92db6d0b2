import SignatureCache.Proofs.Cache.Shelves
import SignatureCache.Proofs.DyadicInterval.Following

/-!
# Caches in which all comparisons end

Two intervals can be compared if their powers differ by 62 at most. Suppose that all intervals asked
for lie in one interval `top`. Then all keys that are ever cached do, since the root grows no more
than it must to contain what is asked for. So if nothing is asked for more than 61 levels under
`top`, no key is further down either, and what a walk looks for is one level further at most, where
the halves of a finest key would be. All comparisons end then, on every shelf.

The invariant is one statement that passes through every step of a query: the work keeps the tree
near `top`, ends in values that are near it, and does not break off.
-/

namespace SignatureCache

open DyadicInterval

variable {V τ α β : Type} [Shelf V τ]

/-- The interval is no coarser than `top`, and finer by a number of levels at most. -/
def DyadicInterval.InReach (levels : Nat) (top I : DyadicInterval) : Prop :=
  top.power ≤ I.power ∧ I.power ≤ top.power + levels

variable {top I J key : DyadicInterval}

/-- What can be a key can be searched for, one level further down. -/
theorem DyadicInterval.InReach.wider (h : InReach 61 top I) : InReach 62 top I := by
  obtain ⟨hI, hI'⟩ := h
  exact ⟨hI, by omega⟩

theorem DyadicInterval.InReach.not_far (hI : InReach 62 top I) (hJ : InReach 62 top J) :
    ¬ Far I J := by
  obtain ⟨hI, hI'⟩ := hI
  obtain ⟨hJ, hJ'⟩ := hJ
  rintro (rfl | rfl | hgap | hgap)
  · rw [ancestor_power] at hI
    omega
  · rw [ancestor_power] at hJ
    omega
  all_goals
    rw [← Bool.not_eq_true, Word.fits32_iff] at hgap
    omega

/-- What follows an interval is no finer than it, and no coarser unless the floor is. -/
theorem DyadicInterval.InReach.following {levels : Nat} {floor : Int} (h : InReach levels top I)
    (hfloor : top.power ≤ floor) : InReach levels top (I.following floor) := by
  obtain ⟨hI, hI'⟩ := h
  rw [DyadicInterval.following]
  by_cases hle : floor ≤ I.power
  · have hnext : floor ≤ (⟨I.offset + 1, I.power⟩ : DyadicInterval).power := hle
    have hge := (coarsens_coarsen hnext).power_ge hnext
    have hpower := power_coarsen_le rfl hnext
    exact ⟨hfloor.trans hge, hpower.trans hI'⟩
  · rw [coarsen, if_pos (not_le.1 hle).le]
    exact ⟨hI, hI'⟩

/-- The key lies in `top`, at most 61 levels under it, and the node is as accurate as the power of
its key at least, and linked to what is near. -/
structure Node.Near (top key : DyadicInterval) (node : Node V) : Prop where
  inside : top.contains key = true
  power_le : key.power ≤ top.power + 61
  accurate : key.power ≤ node.accuracy
  parent : ∀ parent, node.parent? = some parent → InReach 61 top parent
  sibling : ∀ sibling, node.sibling? = some sibling → InReach 61 top sibling

theorem Node.Near.inReach {node : Node V} (h : node.Near top key) : InReach 61 top key :=
  ⟨power_le_of_contains h.inside, h.power_le⟩

/-- All keys of the tree are near, with their nodes. -/
def Tree.Near (top : DyadicInterval) (t : Tree V) : Prop :=
  ∀ key node, t.find? key = some node → node.Near top key

theorem Tree.Near.inReach {t : Tree V} (h : t.Near top) (hkey : t.contains key = true) :
    InReach 61 top key := by
  obtain ⟨node, hnode⟩ := Tree.exists_find?_of_contains hkey
  exact (h key node hnode).inReach

theorem Tree.near_empty (top : DyadicInterval) : (Tree.empty : Tree V).Near top := by
  intro key node h
  rw [Tree.find?_empty] at h
  cases h

/-- The cursor walks under an interval in reach, and is at a key in reach. -/
structure Cursor.Near (top : DyadicInterval) (c : Cursor) : Prop where
  within : InReach 61 top c.top
  current : ∀ key, c.current? = some key → InReach 61 top key

/-- Faults of the source's own are not those of comparisons. -/
structure Source.Compares (source : Source V) : Prop where
  combine : ∀ nodes a b half fault, source.combine nodes a b half = .error fault →
    (Failure.fault fault).incomparable = false
  combineAll : ∀ nodes values fault, source.combineAll nodes values = .error fault →
    (Failure.fault fault).incomparable = false

/-- The request asks for nothing but intervals in `top`, down to 61 levels under it. -/
structure Request.Near (dissection : Dissection) (top : DyadicInterval) (request : Request V) :
    Prop where
  source : request.source.Compares
  inside : ∀ I ∈ request.intervals dissection, top.contains I = true
  power_le : ∀ I ∈ request.intervals dissection,
    max request.resolution I.power ≤ top.power + 61

/-! ### Programs that keep a property -/

section

variable {ε σ : Type} {P : σ → Prop} {E : ε → Prop} {x : EStateM ε σ α} {f : α → EStateM ε σ β}
  {Q Q' : α → Prop} {R : β → Prop}

/-- Started in a state with `P`, the program ends in one, and in a value with `Q` or a failure with
`E`. -/
def Preserves (P : σ → Prop) (E : ε → Prop) (x : EStateM ε σ α) (Q : α → Prop) : Prop :=
  ∀ s, P s → match x s with
    | .ok a s' => P s' ∧ Q a
    | .error error s' => P s' ∧ E error

theorem Preserves.bind (h : Preserves P E x Q) (hf : ∀ a, Q a → Preserves P E (f a) R) :
    Preserves P E (x >>= f) R := by
  intro s hs
  have hx := h s hs
  cases hrun : x s with
  | ok a s' =>
    rw [hrun] at hx
    rw [bind_of_ok hrun]
    exact hf a hx.2 s' hx.1
  | error error s' =>
    rw [hrun] at hx
    rw [bind_of_error hrun]
    exact hx

theorem Preserves.pure {a : α} (h : Q a) : Preserves P E (Pure.pure a : EStateM ε σ α) Q :=
  fun _ hs => ⟨hs, h⟩

theorem Preserves.throw {error : ε} (h : E error) :
    Preserves P E (MonadExcept.throw error : EStateM ε σ α) Q :=
  fun _ hs => ⟨hs, h⟩

theorem Preserves.throw_bind {error : ε} (h : E error) :
    Preserves P E ((MonadExcept.throw error : EStateM ε σ α) >>= f) R :=
  fun _ hs => ⟨hs, h⟩

theorem Preserves.mono (h : Preserves P E x Q) (hQ : ∀ a, Q a → Q' a) : Preserves P E x Q' := by
  intro s hs
  have hx := h s hs
  cases hrun : x s with
  | ok a s' =>
    rw [hrun] at hx
    exact ⟨hx.1, hQ a hx.2⟩
  | error error s' =>
    rw [hrun] at hx
    exact hx

theorem Preserves.mapM {l : List α} (hf : ∀ a ∈ l, Preserves P E (f a) R) :
    Preserves P E (l.mapM f) fun _ => True := by
  induction l with
  | nil => exact .pure trivial
  | cons a l ih =>
    rw [List.mapM_cons]
    refine .bind (hf a List.mem_cons_self) fun b _ => ?_
    exact .bind (ih fun a' ha' => hf a' (List.mem_cons_of_mem a ha')) fun bs _ => .pure trivial

end

/-! ### Edits -/

namespace Tree

variable {parent left right sibling : DyadicInterval} {node : Node V} {Q : α → Prop}

/-- The edit keeps the tree near, and does not break off. -/
abbrev Stays (top : DyadicInterval) (x : EditOn τ α) (Q : α → Prop) : Prop :=
  Preserves (fun t => (Shelf.tree t).Near top)
    (fun fault => (Failure.fault fault).incomparable = false) x Q

theorem Stays.putNode (h : node.Near top key) :
    Stays top (putNode key node : EditOn τ Unit) fun _ => True := by
  intro t ht
  refine ⟨?_, trivial⟩
  change (Shelf.tree (Shelf.put t key node)).Near top
  rw [Shelf.tree_put]
  intro other node' hother
  rw [find?_put] at hother
  split at hother
  · next heq =>
    cases hother
    exact heq ▸ h
  · exact ht other node' hother

/-- A search compares the key with keys of the tree, all of which are near it. -/
theorem Stays.searched (h : InReach 62 top key) :
    Stays top (searched key : EditOn τ (Tree V)) fun t => t.Near top := by
  intro t ht
  rw [Tree.searched]
  cases hsearch : Shelf.search t key with
  | ok _ => exact ⟨ht, ht⟩
  | error fault =>
    obtain ⟨other, hother, hcompare, -⟩ := Shelf.search_fault hsearch
    exact absurd (far_of_compare? hcompare) (h.not_far ((ht.inReach hother).wider))

theorem Stays.test (hI : InReach 62 top I) (hJ : InReach 62 top J) :
    Stays top (test I J : EditOn τ Unit) fun _ => True := by
  intro t ht
  rw [Tree.test]
  cases htest : Shelf.test t I J with
  | ok _ => exact ⟨ht, trivial⟩
  | error fault => exact absurd (far_of_contains? (Shelf.test_fault htest).1) (hI.not_far hJ)

theorem Stays.insert (h : node.Near top key) :
    Stays top (insert key node : EditOn τ Unit) fun _ => True := by
  refine .bind (Stays.searched h.inReach.wider) fun t _ => ?_
  refine .bind (Stays.putNode h) fun _ _ => ?_
  split
  · exact .throw rfl
  · exact .pure trivial

theorem Stays.linkNode (hkey : InReach 61 top key) (hparent : InReach 61 top parent)
    (hsibling : InReach 61 top sibling) :
    Stays top (linkNode key parent sibling : EditOn τ Unit) fun _ => True := by
  refine .bind (Stays.searched hkey.wider) fun t ht => ?_
  cases hnode : t.find? key with
  | none => exact .throw rfl
  | some node =>
    have h := ht key node hnode
    refine Stays.putNode ⟨h.inside, h.power_le, h.accurate, ?_, ?_⟩
    · rintro _ ⟨⟩
      exact hparent
    · rintro _ ⟨⟩
      exact hsibling

theorem Stays.linkHalves (hparent : InReach 61 top parent) (hleft : InReach 61 top left)
    (hright : InReach 61 top right) :
    Stays top (linkHalves parent left right : EditOn τ Unit) fun _ => True := by
  have hcovers : ∀ {half}, InReach 61 top half →
      Stays top (covers parent half : EditOn τ Bool) fun _ => True := fun hhalf =>
    .bind (Stays.test hparent.wider hhalf.wider) fun _ _ => .pure trivial
  have hcan : Stays top (canLink parent left right : EditOn τ Bool) fun _ => True := by
    refine .bind (Stays.searched hparent.wider) fun t _ => ?_
    split
    · exact .pure trivial
    · refine .bind (hcovers hleft) fun inside _ => ?_
      split
      · exact .pure trivial
      · exact hcovers hright
  refine .bind hcan fun can _ => ?_
  split
  · exact .throw_bind rfl
  · exact .bind (Stays.linkNode hleft hparent hright) fun _ _ => Stays.linkNode hright hparent hleft

theorem Stays.insertHalves (hparent : top.contains parent = true)
    (hpower : parent.power < top.power + 61) (leftValue rightValue : V) :
    Stays top (insertHalves parent parent.left parent.right leftValue rightValue : EditOn τ Unit)
      fun _ => True := by
  have hhalf : ∀ {half value}, parent.contains half = true → half.power = parent.power + 1 →
      Node.Near top half ({ value, accuracy := half.power } : Node V) := by
    intro half value hcontains hp
    refine ⟨contains_trans hparent hcontains, by omega, le_rfl, ?_, ?_⟩ <;> rintro _ ⟨⟩
  have hleft : Node.Near top parent.left ({ value := leftValue, accuracy := _ } : Node V) :=
    hhalf (contains_left parent) rfl
  have hright : Node.Near top parent.right ({ value := rightValue, accuracy := _ } : Node V) :=
    hhalf (contains_right parent) rfl
  refine .bind (Stays.insert hleft) fun _ _ => .bind (Stays.insert hright) fun _ _ => ?_
  exact Stays.linkHalves ⟨power_le_of_contains hparent, hpower.le⟩ hleft.inReach hright.inReach

end Tree

namespace Work

variable {Q : α → Prop}

/-- The work keeps the tree near, and does not break off. -/
abbrev Stays (top : DyadicInterval) (x : WorkOn V τ α) (Q : α → Prop) : Prop :=
  Preserves (fun s => s.plain.tree.Near top) (fun failure => failure.incomparable = false) x Q

/-! ### Steps -/

theorem Stays.tree : Stays top (tree : WorkOn V τ (Tree V)) fun t => t.Near top :=
  fun _ hs => ⟨hs, hs⟩

theorem Stays.count (change : Activity → Activity) :
    Stays top (count change : WorkOn V τ Unit) fun _ => True :=
  fun _ hs => ⟨hs, trivial⟩

theorem Stays.edit {change : EditOn τ α} (h : Tree.Stays top change Q) :
    Stays top (edit change) Q := by
  intro s hs
  have hchange := h s.tree hs
  rw [Work.edit]
  cases hrun : change s.tree with
  | ok a t =>
    rw [hrun] at hchange
    exact hchange
  | error fault t =>
    rw [hrun] at hchange
    exact hchange

theorem Stays.searched (h : InReach 62 top key) :
    Stays top (searched key : WorkOn V τ (Tree V)) fun t => t.Near top :=
  .edit (Tree.Stays.searched h)

theorem Stays.test (hI : InReach 62 top I) (hJ : InReach 62 top J) :
    Stays top (test I J : WorkOn V τ Unit) fun _ => True :=
  .edit (Tree.Stays.test hI hJ)

theorem Stays.orFault {r : Except Fault α}
    (h : ∀ fault, r = .error fault → (Failure.fault fault).incomparable = false) :
    Stays top (orFault r : WorkOn V τ α) fun a => r = .ok a := by
  cases r with
  | ok a => exact .pure rfl
  | error fault => exact .throw (h fault rfl)

theorem Stays.orError (r : Except Error α) :
    Stays top (orError r : WorkOn V τ α) fun a => r = .ok a := by
  cases r with
  | ok a => exact .pure rfl
  | error error => exact .throw rfl

theorem Stays.orMissing {fault : Fault} (h : (Failure.fault fault).incomparable = false)
    (a? : Option α) : Stays top (orMissing fault a? : WorkOn V τ α) fun a => a? = some a := by
  cases a? with
  | some a => exact .pure rfl
  | none => exact .throw h

theorem Stays.left (I : DyadicInterval) :
    Stays top (Work.orFault I.left? : WorkOn V τ DyadicInterval) fun left => left = I.left := by
  unfold left?
  split
  · exact .throw rfl
  · split
    · exact .throw rfl
    · exact .pure rfl

theorem Stays.right (I : DyadicInterval) :
    Stays top (Work.orFault I.right? : WorkOn V τ DyadicInterval) fun right => right = I.right := by
  unfold right?
  split
  · exact .throw rfl
  · split
    · exact .throw rfl
    · exact .pure rfl

theorem Stays.parent (I : DyadicInterval) :
    Stays top (Work.orFault I.parent? : WorkOn V τ DyadicInterval) fun parent =>
      parent = I.parent := by
  rcases parent?_cases I with h | h <;> rw [h]
  · exact .throw rfl
  · exact .pure rfl

/-! ### The parts of a query -/

/-- Whether a key is a leaf is asked one level below it. -/
theorem Stays.isLeaf (h : InReach 61 top key) :
    Stays top (isLeaf key : WorkOn V τ Bool) fun _ => True := by
  refine .bind (Stays.left key) fun left hleft => ?_
  have hreach : InReach 62 top left := by
    obtain ⟨hle, hle'⟩ := h
    rw [InReach, hleft, left_power]
    omega
  exact .bind (Stays.searched hreach) fun _ _ => .pure trivial

theorem Stays.bound {c : Cursor} {t : Tree V} (hc : c.Near top) (ht : t.Near top)
    {next? : Option DyadicInterval} (hnext : ∀ next, next? = some next → t.contains next = true) :
    Stays top (bound c next? : WorkOn V τ Unit) fun _ => True := by
  cases next? with
  | none => exact .pure trivial
  | some next =>
    exact Stays.test hc.within.wider ((ht.inReach (hnext next rfl)).wider)

/-- The step goes to a key of the tree, or leaves the walk. -/
theorem Stays.advance {c : Cursor} (hc : c.Near top) :
    Stays top (advance c : WorkOn V τ Cursor) fun c' => c'.Near top := by
  refine .bind Stays.tree fun t ht => ?_
  have hnext : ∀ next, c.current?.bind t.nextAfter? = some next → t.contains next = true := by
    intro next h
    obtain ⟨key, -, h⟩ := Option.bind_eq_some_iff.1 h
    exact (Tree.nextAfter?_eq_some_iff.1 h).1
  refine .bind (Stays.bound hc ht hnext) fun _ _ => .pure ⟨hc.within, fun key hkey => ?_⟩
  obtain ⟨current, hcurrent, hwithin⟩ := Option.bind_eq_some_iff.1 hkey
  rw [Cursor.within, Option.filter_eq_some_iff] at hwithin
  exact ht.inReach (hnext key (by rw [hcurrent, Option.bind_some, hwithin.1]))

/-- What is searched for in a skip is no finer than the key that is skipped. -/
theorem Stays.skip {c : Cursor} (hc : c.Near top) :
    Stays top (skip c : WorkOn V τ Cursor) fun c' => c'.Near top := by
  unfold Work.skip
  cases hcurrent : c.current? with
  | none => exact .pure hc
  | some key =>
    have hoverflow : ∀ fault, key.following? c.top.power = .error fault →
        (Failure.fault fault).incomparable = false := by
      intro fault h
      rw [following?] at h
      split at h
      · cases h
      · cases h
        rfl
    refine .bind (Stays.orFault hoverflow) fun following hfollowing => ?_
    have hreach : InReach 62 top following := by
      rw [following?] at hfollowing
      split at hfollowing
      · cases hfollowing
        exact ((hc.current key hcurrent).following hc.within.1).wider
      · cases hfollowing
    refine .bind (Stays.searched hreach) fun t ht => ?_
    have hnext : ∀ next, t.nextFrom? following = some next → t.contains next = true :=
      fun next h => (Tree.nextFrom?_eq_some_iff.1 h).1
    refine .bind (Stays.bound hc ht hnext) fun _ _ => ?_
    have hskip : c.skip? t = .ok { c with current? := c.within (t.nextFrom? following) } := by
      simp only [Cursor.skip?, hcurrent, hfollowing]
      rfl
    rw [hskip]
    refine .pure ⟨hc.within, fun next hwithin => ?_⟩
    rw [Cursor.within, Option.filter_eq_some_iff] at hwithin
    exact ht.inReach (hnext next hwithin.1)

theorem Stays.fresh (source : Source V) (I : DyadicInterval) :
    Stays top (fresh source I : WorkOn V τ V) fun _ => True :=
  .bind Stays.tree fun _ _ => .bind (Stays.orError _) fun _ _ => .bind (Stays.count _) fun _ _ =>
    .pure trivial

theorem Stays.stored (h : InReach 62 top I) :
    Stays top (stored I : WorkOn V τ V) fun _ => True :=
  .bind (Stays.searched h) fun _ _ => .bind (Stays.orMissing rfl _) fun _ _ => .pure trivial

theorem Stays.plant (source : Source V) (hI : top.contains I = true)
    (hp : I.power ≤ top.power + 61) :
    Stays top (plant source I : WorkOn V τ Unit) fun _ => True := by
  refine .bind (Stays.fresh source I) fun value _ => Stays.edit (Tree.Stays.insert ?_)
  refine ⟨hI, hp, le_rfl, ?_, ?_⟩ <;> rintro _ ⟨⟩

section Combining

variable {source : Source V} (hsource : source.Compares)

include hsource

theorem Stays.growRoot {root : DyadicInterval} (hroot : top.contains root.parent = true)
    (hp : root.power ≤ top.power + 61) :
    Stays top (growRoot source root : WorkOn V τ Unit) fun _ => True := by
  have hpower := power_le_of_contains hroot
  rw [parent_power] at hpower
  have hreach : InReach 61 top root := ⟨by omega, hp⟩
  refine .bind (Stays.parent root) fun parent hparent => ?_
  refine .bind (Stays.fresh source root.sibling) fun value _ => ?_
  refine .bind (Stays.searched hreach.wider) fun t ht => ?_
  refine .bind (Stays.orMissing rfl _) fun node hnode => ?_
  refine .bind (Stays.orFault (hsource.combine _ _ _ _)) fun total _ => ?_
  refine .bind (Q := fun _ => True) (Stays.edit ?_) fun _ _ => Stays.count _
  have hsibling : Node.Near top root.sibling
      ({ value, accuracy := root.sibling.power } : Node V) := by
    refine ⟨contains_trans hroot (parent_contains_sibling root), ?_, le_rfl, ?_, ?_⟩
    · rwa [sibling_power]
    all_goals rintro _ ⟨⟩
  have hnew : Node.Near top parent
      ({ value := total, accuracy := min node.accuracy root.sibling.power } : Node V) := by
    have haccurate := (ht root node hnode).accurate
    subst hparent
    refine ⟨hroot, ?_, ?_, ?_, ?_⟩
    · rw [parent_power]
      omega
    · change root.parent.power ≤ min node.accuracy root.sibling.power
      rw [parent_power, sibling_power]
      omega
    all_goals rintro _ ⟨⟩
  refine .bind (Tree.Stays.insert hsibling) fun _ _ => .bind (Tree.Stays.insert hnew) fun _ _ => ?_
  cases root.half with
  | left => exact Tree.Stays.linkHalves hnew.inReach hreach hsibling.inReach
  | right => exact Tree.Stays.linkHalves hnew.inReach hsibling.inReach hreach

/-- A root that has to grow is not `top` yet. -/
theorem Stays.growToContain {root : DyadicInterval} (side : SameSide root I)
    (hI : top.contains I = true) (hIp : I.power ≤ top.power + 61) (hroot : top.contains root = true)
    (hp : root.power ≤ top.power + 61) :
    Stays top (growToContain source root I side : WorkOn V τ DyadicInterval) fun root' =>
      top.contains root' = true := by
  induction hd : distance root I using Nat.strong_induction_on generalizing root with
  | _ d ih =>
    unfold Work.growToContain
    have hreach : InReach 61 top root := ⟨power_le_of_contains hroot, hp⟩
    have hreachI : InReach 61 top I := ⟨power_le_of_contains hI, hIp⟩
    refine .bind (Stays.test hreach.wider hreachI.wider) fun _ _ => ?_
    cases hc : root.contains I with
    | true => exact .pure hroot
    | false =>
      have hne : root ≠ top := by
        rintro rfl
        cases hI.symm.trans hc
      have hparent := contains_parent_of_ne hroot hne
      have hlt := distance_parent_lt side hc
      refine .bind (Stays.growRoot hsource hparent hp) fun _ _ => ?_
      exact ih _ (hd ▸ hlt) side.parent hparent (by rw [parent_power]; omega) rfl

theorem Stays.improveParent {below : DyadicInterval} (h : InReach 61 top below) :
    Stays top (improveParent source below : WorkOn V τ (Option DyadicInterval)) fun parent? =>
      ∀ parent, parent? = some parent → InReach 61 top parent := by
  refine .bind (Stays.searched h.wider) fun t ht => ?_
  cases hnode : t.find? below with
  | none => exact .pure nofun
  | some node =>
    have hnear := ht below node hnode
    cases hparent : node.parent? with
    | none =>
      simp only [hparent]
      exact .pure nofun
    | some parent =>
      simp only [hparent]
      have hreach := hnear.parent parent hparent
      refine .bind (Stays.orMissing rfl _) fun sibling hsibling => ?_
      have hsibling := hnear.sibling sibling hsibling
      refine .bind (Stays.searched hsibling.wider) fun _ _ => ?_
      refine .bind (Stays.orMissing rfl _) fun siblingNode _ => ?_
      refine .bind (Stays.searched hreach.wider) fun t' ht' => ?_
      refine .bind (Stays.orMissing rfl _) fun parentNode hparentNode => ?_
      have hold := ht' parent parentNode hparentNode
      split
      · exact .pure nofun
      · next hgain =>
        refine .bind (Stays.orFault (hsource.combine _ _ _ _)) fun value _ => ?_
        have hle := (not_le.1 hgain).le
        rw [Node.improve?, if_pos hle]
        refine .bind (.pure rfl) fun improved himproved => ?_
        have hnew : Node.Near top parent improved := by
          cases himproved
          exact ⟨hold.inside, hold.power_le, hold.accurate.trans hle, hold.parent, hold.sibling⟩
        refine .bind (Stays.edit (Tree.Stays.putNode hnew)) fun _ _ => ?_
        refine .bind (Stays.count _) fun _ _ => .pure ?_
        rintro _ ⟨⟩
        exact hreach

theorem Stays.propagate {below : DyadicInterval} (h : InReach 61 top below) :
    Stays top (propagate source below : WorkOn V τ Unit) fun _ => True := by
  have hlevels : ∀ levels {below}, InReach 61 top below →
      Stays top (propagateLevels source levels below : WorkOn V τ Unit) fun _ => True := by
    intro levels
    induction levels with
    | zero => exact fun _ => .throw rfl
    | succ levels ih =>
      intro below h
      refine .bind (Stays.improveParent hsource h) fun parent? hparent => ?_
      cases parent? with
      | none => exact .pure trivial
      | some parent => exact ih (hparent parent rfl)
  refine .bind Stays.tree fun t _ => ?_
  cases t.root? with
  | none => exact .pure trivial
  | some root => exact hlevels _ h

theorem Stays.splitLeaf {leaf : DyadicInterval} (h : top.power ≤ leaf.power)
    (hp : leaf.power + 1 ≤ top.power + 61) :
    Stays top (splitLeaf source leaf : WorkOn V τ Unit) fun _ => True := by
  have hreach : InReach 61 top leaf := ⟨h, by omega⟩
  refine .bind (Stays.isLeaf hreach) fun isLeaf _ => ?_
  split
  · exact .throw_bind rfl
  · refine .bind (Stays.searched hreach.wider) fun t ht => ?_
    refine .bind (Stays.orMissing rfl _) fun node hnode => ?_
    refine .bind (Stays.left leaf) fun left hleft => .bind (Stays.right leaf) fun right hright => ?_
    subst hleft hright
    refine .bind (Stays.orError _) fun values _ => ?_
    have hinside := (ht leaf node hnode).inside
    refine .bind (Stays.edit (Tree.Stays.insertHalves hinside (by omega) _ _)) fun _ _ => ?_
    refine .bind (Stays.count _) fun _ _ => Stays.propagate hsource ?_
    exact ⟨by rw [left_power]; omega, hp⟩

/-- All keys on the way down are finer than the root, and their halves no finer than the interval
that is gone to. -/
theorem Stays.descend {root : DyadicInterval} (hroot : top.contains root = true)
    (hI : InReach 61 top I) :
    Stays top (descend source root I : WorkOn V τ Unit) fun _ => True := by
  obtain ⟨hge, hp⟩ := hI
  have hpower := power_le_of_contains hroot
  have hlevels : ∀ levels : Nat, (levels : Int) ≤ I.power - top.power →
      Stays top (descendLevels source I levels : WorkOn V τ Unit) fun _ => True := by
    intro levels
    induction levels with
    | zero => exact fun _ => .pure trivial
    | succ levels ih =>
      intro hle
      have hrest := ih (by omega)
      have hkey : (I.ancestor (levels + 1)).power = I.power - (levels + 1 : Nat) :=
        ancestor_power I (levels + 1)
      have hreach : InReach 61 top (I.ancestor (levels + 1)) := ⟨by omega, by omega⟩
      refine .bind (Stays.isLeaf hreach) fun leaf _ => ?_
      split
      · exact .bind (Stays.splitLeaf hsource hreach.1 (by omega)) fun _ _ => hrest
      · exact hrest
  exact hlevels _ (by omega)

/-- Only a leaf that is coarser than what is desired is split. -/
theorem Stays.sharpenAt (policy : Policy) {desired : Int} (hdesired : desired ≤ top.power + 61)
    {c : Cursor} (hc : c.Near top) (hkey : InReach 61 top key) :
    Stays top (sharpenAt policy source desired c key : WorkOn V τ Cursor) fun c' =>
      c'.Near top := by
  refine .bind (Stays.searched hkey.wider) fun t ht => ?_
  refine .bind (Stays.orMissing rfl _) fun accuracy haccuracy => ?_
  refine .bind (Stays.isLeaf hkey) fun leaf _ => ?_
  split
  · split
    · exact Stays.skip hc
    · exact Stays.advance hc
  · next hlt =>
    split
    · obtain ⟨node, hnode, rfl⟩ := Option.map_eq_some_iff.1 haccuracy
      have haccurate := (ht key node hnode).accurate
      have hp : key.power + 1 ≤ top.power + 61 := by omega
      refine .bind (Stays.splitLeaf hsource hkey.1 hp) fun _ _ => ?_
      refine .bind (Stays.left key) fun left hleft => .pure ⟨hc.within, ?_⟩
      rintro _ ⟨⟩
      rw [hleft]
      exact ⟨by rw [left_power]; have := hkey.1; omega, hp⟩
    · exact Stays.advance hc

theorem Stays.sharpen (policy : Policy) {desired : Int} (hI : InReach 61 top I)
    (hdesired : desired ≤ top.power + 61) :
    Stays top (sharpen policy source I desired : WorkOn V τ Unit) fun _ => True := by
  have hfrom : ∀ keys {c : Cursor}, c.Near top →
      Stays top (sharpenFrom policy source desired keys c : WorkOn V τ Unit) fun _ => True := by
    intro keys
    induction keys with
    | zero => exact fun _ => .throw rfl
    | succ keys ih =>
      intro c hc
      rw [Work.sharpenFrom]
      split
      · next key hkey =>
        exact .bind (Stays.sharpenAt hsource policy hdesired hc (hc.current key hkey)) fun _ => ih
      · exact .pure trivial
  have hstart : (Cursor.start I).Near top := by
    refine ⟨hI, ?_⟩
    rintro _ ⟨⟩
    exact hI
  refine .bind Stays.tree fun t _ => .bind (hfrom _ hstart) fun _ _ => ?_
  refine .bind (Stays.searched hI.wider) fun t' _ => ?_
  split
  · exact .throw rfl
  · exact .pure trivial

theorem Stays.reach (policy : Policy) {resolution : Int} (hI : top.contains I = true)
    (hp : max resolution I.power ≤ top.power + 61) :
    Stays top (reach policy source I resolution : WorkOn V τ Unit) fun _ => True := by
  have hpower : I.power ≤ top.power + 61 := (le_max_right _ _).trans hp
  have hreach : InReach 61 top I := ⟨power_le_of_contains hI, hpower⟩
  have hsharpen : Stays top (Work.sharpen policy source I resolution : WorkOn V τ Unit)
      fun _ => True :=
    Stays.sharpen hsource policy hreach ((le_max_left _ _).trans hp)
  refine .bind Stays.tree fun t ht => ?_
  cases hroot : t.root? with
  | none =>
    refine .bind (Stays.plant source hI hpower) fun _ _ => ?_
    split
    · exact hsharpen
    · exact .pure trivial
  | some root =>
    obtain ⟨node, hnode⟩ := Tree.exists_find?_of_contains (Tree.root?_eq_some_iff.1 hroot).1
    have hnear := ht root node hnode
    have hgrow : Stays top (grow source root I : WorkOn V τ DyadicInterval) fun root' =>
        top.contains root' = true := by
      rw [Work.grow]
      split
      · next side =>
        exact Stays.growToContain hsource side hI hpower hnear.inside hnear.power_le
      · exact .throw rfl
    refine .bind hgrow fun root' hroot' => ?_
    exact .bind (Stays.descend hsource hroot' hreach) fun _ _ => hsharpen

theorem Stays.dyadicValue (policy : Policy) {resolution : Int} (hI : top.contains I = true)
    (hp : max resolution I.power ≤ top.power + 61) :
    Stays top (dyadicValue policy source I resolution : WorkOn V τ V) fun _ => True := by
  have hreach : InReach 61 top I :=
    ⟨power_le_of_contains hI, (le_max_right _ _).trans hp⟩
  have hstored : Stays top (Work.stored I : WorkOn V τ V) fun _ => True :=
    Stays.stored hreach.wider
  refine .bind (Stays.orError _) fun _ _ => .bind (Stays.count _) fun _ _ => ?_
  refine .bind (Stays.searched hreach.wider) fun t _ => ?_
  cases t.accuracy? I with
  | none => exact .bind (Stays.reach hsource policy hI hp) fun _ _ => hstored
  | some accuracy =>
    dsimp only
    split
    · exact .bind (Stays.count _) fun _ _ => hstored
    · refine .bind (Stays.sharpen hsource policy hreach ?_) fun _ _ => hstored
      exact (le_max_left _ _).trans hp

end Combining

/-- A request near `top` keeps the tree near, and does not break off. -/
theorem Stays.answer (policy : Policy) (dissection : Dissection) (request : Request V)
    (h : request.Near dissection top) :
    Stays top (answer policy dissection request.source request.query request.resolution :
      WorkOn V τ V) fun _ => True := by
  obtain ⟨source, query, resolution⟩ := request
  obtain ⟨hsource, inside, hp⟩ := h
  cases query with
  | dyadic I =>
    have hI : I ∈ Request.intervals ⟨source, .dyadic I, resolution⟩ dissection :=
      List.mem_singleton_self I
    exact Stays.dyadicValue hsource policy (inside I hI) (hp I hI)
  | real I =>
    change Stays top (realValue policy dissection source I resolution) _
    unfold realValue
    split
    · exact .bind Stays.tree fun t _ => .pure trivial
    · refine .bind (Stays.orError _) fun _ _ => .bind (Stays.orError _) fun pieces hpieces => ?_
      have hmem : Request.intervals ⟨source, .real I, resolution⟩ dissection = pieces := by
        simp only [Request.intervals, hpieces]
      rw [hmem] at inside hp
      refine .bind (.mapM fun J hJ => Stays.dyadicValue hsource policy (inside J hJ) (hp J hJ)) ?_
      refine fun values _ => .bind Stays.tree fun t _ => ?_
      exact (Stays.orFault (hsource.combineAll _ _)).mono fun _ _ => trivial

end Work

namespace Cache

variable {cache : Cache V τ} {request : Request V} {requests : List (Request V)}

/-- A request near `top` does not break off if the tree is near `top` too, and it leaves such a
tree. -/
theorem answer_near (hcache : cache.store.plain.tree.Near top)
    (h : request.Near cache.dissection top) : cache.breaksOff request = false ∧
      (cache.answer request.source request.query
        request.resolution).2.store.plain.tree.Near top := by
  have hstays : Work.Stays top (Work.answer cache.policy cache.dissection request.source
      request.query request.resolution : WorkOn V τ V) fun _ => True :=
    Work.Stays.answer cache.policy cache.dissection request h
  have hend := hstays cache.store hcache
  cases hrun : (Work.answer cache.policy cache.dissection request.source request.query
      request.resolution : WorkOn V τ V) cache.store with
  | ok value s =>
    rw [hrun] at hend
    rw [breaksOff, answer_of_ok _ hrun]
    exact ⟨rfl, hend.1⟩
  | error failure s =>
    rw [hrun] at hend
    rw [breaksOff, answer_of_error _ hrun]
    exact ⟨hend.2, hend.1⟩

theorem compares_of_near (hcache : cache.store.plain.tree.Near top)
    (near : ∀ request ∈ requests, request.Near cache.dissection top) :
    cache.compares requests = true := by
  induction requests generalizing cache with
  | nil => rfl
  | cons request requests ih =>
    obtain ⟨hfirst, hnext⟩ := answer_near hcache (near request List.mem_cons_self)
    refine compares_cons.2 ⟨hfirst, ih hnext ?_⟩
    rw [answer_snd]
    exact fun later hlater => near later (List.mem_cons_of_mem request hlater)

/-- On every shelf, all comparisons end for requests that ask for nothing but intervals in one
interval, down to 61 levels under it. -/
theorem new_compares_of_near (policy : Policy) (dissection : Dissection)
    (near : ∀ request ∈ requests, request.Near dissection top) :
    ({ policy, dissection } : Cache V τ).compares requests = true := by
  refine compares_of_near ?_ near
  change (Shelf.tree (Shelf.empty : τ)).Near top
  rw [Shelf.tree_empty]
  exact Tree.near_empty top

end Cache

end SignatureCache
