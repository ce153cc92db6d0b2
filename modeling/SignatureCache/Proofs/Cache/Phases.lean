import SignatureCache.Proofs.Cache.Moves

/-!
# The phases of a query

Growth, descent and the walk are loops of moves. Growth ends at a root that contains the interval,
descent with the interval in the tree; both fail only for a reason that `Blamed` names. The walk is
followed here only as far as its moves go.
-/

namespace SignatureCache

namespace Tree

variable {V : Type}

variable {key : DyadicInterval}

theorem isLeaf?_eq (t : Tree V) (hleft : key.left? = .ok key.left) :
    t.isLeaf? key = .ok (!t.contains key.left) := by
  rw [isLeaf?, hleft]
  rfl

theorem isLeaf?_eq_error (t : Tree V) {fault : Fault} (hleft : key.left? = .error fault) :
    t.isLeaf? key = .error fault := by
  rw [isLeaf?, hleft]
  rfl

theorem isLeaf?_cases (t : Tree V) (key : DyadicInterval) :
    (∃ fault, key.left? = .error fault ∧ t.isLeaf? key = .error fault) ∨
      (key.left? = .ok key.left ∧ t.isLeaf? key = .ok (!t.contains key.left)) := by
  rcases DyadicInterval.halves?_cases key with ⟨fault, hl, -⟩ | ⟨hl, -⟩
  · exact .inl ⟨fault, hl, t.isLeaf?_eq_error hl⟩
  · exact .inr ⟨hl, t.isLeaf?_eq hl⟩

end Tree

namespace Work

open DyadicInterval SignatureCache.Tree

variable {V : Type} {source : Source V} {I root : DyadicInterval} {resolution : Int}
  {s s' : Store V}

/-- Work that is followed from where some moves have led is followed from where they began. -/
theorem Ends.after {α : Type} {x : Work V α} {P : α → Store V → Prop}
    {E : Failure → Store V → Prop}
    (h : Ends x s' (fun a s'' => Moves source I resolution s' s'' ∧ P a s'')
      (fun failure s'' => Moves source I resolution s' s'' ∧ E failure s''))
    (hm : Moves source I resolution s s') :
    Ends x s' (fun a s'' => Moves source I resolution s s'' ∧ P a s'')
      (fun failure s'' => Moves source I resolution s s'' ∧ E failure s'') := by
  apply h.mono
  · rintro a s'' ⟨hm', hP⟩
    exact ⟨hm.trans hm', hP⟩
  · rintro failure s'' ⟨hm', hE⟩
    exact ⟨hm.trans hm', hE⟩

/-! ### Growth -/

theorem growToContain_done (source : Source V) (side : SameSide root I)
    (hc : root.contains I = true) :
    (growToContain source root I side : Work V DyadicInterval) = pure root := by
  rw [growToContain, test_eq, pure_bind, if_pos hc]

theorem growToContain_next (source : Source V) (side : SameSide root I)
    (hout : root.contains I = false) :
    (growToContain source root I side : Work V DyadicInterval) =
      growRoot source root >>= fun _ => growToContain source root.parent I side.parent := by
  rw [growToContain, test_eq, pure_bind, if_neg (Bool.eq_false_iff.1 hout)]

theorem growToContain_ends (resolution : Int) (side : SameSide root I)
    (h : s.tree.FullUnder root) :
    Ends (growToContain source root I side) s
      (fun top s' => Moves source I resolution s s' ∧ s'.tree.FullUnder top ∧
        top.contains I = true)
      (fun failure s' => Moves source I resolution s s' ∧ Blamed source I s' failure) := by
  induction hd : distance root I using Nat.strong_induction_on generalizing root s with
  | _ n ih =>
    cases hc : root.contains I with
    | true =>
      rw [growToContain_done source side hc]
      exact ⟨.refl, h, hc⟩
    | false =>
      rw [growToContain_next source side hc]
      apply (growRoot_ends resolution h side hc).bind
      rintro ⟨⟩ s₁ ⟨hm, hfull⟩
      have hlt := distance_parent_lt side hc
      exact (ih _ (hd ▸ hlt) side.parent hfull rfl).after hm

/-! ### Descent -/

theorem descendLevels_unfit (source : Source V) (levels : Nat) (s : Store V) {fault : Fault}
    (hleft : (I.ancestor (levels + 1)).left? = .error fault) :
    descendLevels source I (levels + 1) s = .error (.fault fault) s := by
  rw [descendLevels, bind_congr_run (isLeaf_run s _), isLeaf?_eq_error _ hleft]
  rfl

theorem descendLevels_run (source : Source V) (levels : Nat) (s : Store V)
    (hleft : (I.ancestor (levels + 1)).left? = .ok (I.ancestor (levels + 1)).left) :
    descendLevels source I (levels + 1) s =
      (if s.tree.contains (I.ancestor (levels + 1)).left = true then descendLevels source I levels
      else splitLeaf source (I.ancestor (levels + 1)) >>= fun _ =>
        descendLevels source I levels) s := by
  rw [descendLevels, bind_congr_run (isLeaf_run s _), isLeaf?_eq _ hleft]
  cases s.tree.contains (I.ancestor (levels + 1)).left with
  | true => rfl
  | false => rfl

/-- Where an ancestor has halves, the next one down is cached. -/
theorem contains_next_ancestor {levels : Nat} (h : s.tree.FullUnder root)
    (hmem : s.tree.contains (I.ancestor (levels + 1)) = true)
    (hl : s.tree.contains (I.ancestor (levels + 1)).left = true) :
    s.tree.contains (I.ancestor levels) = true := by
  have hr := h.contains_right_of_left hmem hl
  rw [ancestor_succ] at hl hr
  rcases eq_left_or_eq_right (I.ancestor levels) with heq | heq
  · rwa [heq]
  · rwa [heq]

theorem descendLevels_ends (resolution : Int) (levels : Nat) (h : s.tree.FullUnder root)
    (hmem : s.tree.contains (I.ancestor levels) = true) :
    Ends (descendLevels source I levels) s
      (fun _ s' => Moves source I resolution s s' ∧ s'.tree.FullUnder root ∧
        s'.tree.contains I = true)
      (fun failure s' => Moves source I resolution s s' ∧ Blamed source I s' failure) := by
  induction levels generalizing s with
  | zero =>
    rw [ancestor_zero] at hmem
    exact ⟨.refl, h, hmem⟩
  | succ levels ih =>
    rcases halves?_cases (I.ancestor (levels + 1)) with ⟨fault, hl, -⟩ | ⟨hl, -⟩
    · rw [ends_of_error (descendLevels_unfit source levels s hl)]
      exact ⟨.refl, .half hmem hl⟩
    · rw [ends_congr (descendLevels_run source levels s hl)]
      cases hleft : s.tree.contains (I.ancestor (levels + 1)).left with
      | true =>
        rw [if_pos rfl]
        exact ih h (contains_next_ancestor h hmem hleft)
      | false =>
        rw [if_neg Bool.false_ne_true]
        obtain ⟨node, hnode⟩ := exists_find?_of_contains hmem
        refine Ends.bind (splitLeaf_ends h hnode hleft
          (.inl ⟨contains_ancestor I (levels + 1), ne_ancestor_succ I levels⟩)) ?_
        rintro ⟨⟩ s₁ ⟨hm, hfull, hkeys⟩
        refine (ih hfull ?_).after hm
        exact contains_next_ancestor hfull ((hkeys _).2 (.inr (.inr hmem))) ((hkeys _).2 (.inl rfl))

theorem descend_ends (resolution : Int) (h : s.tree.FullUnder root)
    (hc : root.contains I = true) :
    Ends (descend source root I) s
      (fun _ s' => Moves source I resolution s s' ∧ s'.tree.FullUnder root ∧
        s'.tree.contains I = true)
      (fun failure s' => Moves source I resolution s s' ∧ Blamed source I s' failure) := by
  apply descendLevels_ends resolution _ h
  rw [ancestor_eq_of_contains hc]
  exact h.contains_root

/-! ### The walk -/

theorem within_eq_some {c : Cursor} {key? : Option DyadicInterval} {key : DyadicInterval}
    (h : c.within key? = some key) : c.top.contains key = true := by
  rw [Cursor.within, Option.filter_eq_some_iff] at h
  exact h.2

theorem bound_eq (c : Cursor) (next? : Option DyadicInterval) :
    (bound c next? : Work V Unit) = pure () := by
  cases next? with
  | none => rfl
  | some next => rfl

theorem advance_run (c : Cursor) (s : Store V) :
    (advance c : Work V Cursor) s = .ok (c.advance s.tree) s := by
  rw [advance, bind_of_ok (tree_run s), bound_eq]
  rfl

theorem skip_run (c : Cursor) (s : Store V) :
    (skip c : Work V Cursor) s = (orFault (c.skip? s.tree) : Work V Cursor) s := by
  rw [skip]
  cases hc : c.current? with
  | none =>
    simp only [Cursor.skip?, hc]
    rfl
  | some key =>
    dsimp only
    cases hq : key.following? c.top.power with
    | error fault =>
      simp only [Cursor.skip?, hc, hq]
      rfl
    | ok following =>
      rw [bind_of_ok (orFault_ok following s), bind_of_ok (searched_run s following), bound_eq]
      rfl

theorem sharpenAt_moves (policy : Policy) {c : Cursor} {key : DyadicInterval}
    (h : s.tree.FullUnder root) (hcurrent : c.current? = some key)
    (hkey : c.top.contains key = true) :
    Ends (sharpenAt policy source resolution c key) s
      (fun c' s' => Moves source c.top resolution s s' ∧ s'.tree.FullUnder root ∧
        c'.top = c.top ∧ ∀ next, c'.current? = some next → c.top.contains next = true)
      (fun _ s' => Moves source c.top resolution s s' ∧ True) := by
  have hadvance : ∀ next, (c.advance s.tree).current? = some next →
      c.top.contains next = true := by
    intro next hnext
    rw [Cursor.advance, hcurrent] at hnext
    exact within_eq_some hnext
  rw [sharpenAt, Ends, bind_of_ok (searched_run s key)]
  cases hnode : s.tree.find? key with
  | none =>
    have hq : s.tree.accuracy? key = none := by
      simp [accuracy?, hnode]
    rw [hq]
    exact ⟨.refl, trivial⟩
  | some node =>
    have hq : s.tree.accuracy? key = some node.accuracy := by
      simp [accuracy?, hnode]
    rw [hq, bind_of_ok (orMissing_some _ _ s), bind_congr_run (isLeaf_run s key)]
    rcases s.tree.isLeaf?_cases key with ⟨fault, hl, hq⟩ | ⟨hl, hq⟩
    · rw [hq]
      exact ⟨.refl, trivial⟩
    · rw [hq, bind_of_ok (orFault_ok _ s)]
      by_cases hacc : resolution ≤ node.accuracy
      · rw [if_pos hacc]
        cases policy.skipAccurate with
        | true =>
          rw [if_pos rfl, skip_run]
          simp only [Cursor.skip?, hcurrent]
          cases key.following? c.top.power with
          | error fault => exact ⟨.refl, trivial⟩
          | ok bound => exact ⟨.refl, h, rfl, fun next hnext => within_eq_some hnext⟩
        | false =>
          rw [if_neg Bool.false_ne_true, advance_run]
          exact ⟨.refl, h, rfl, hadvance⟩
      · rw [if_neg hacc]
        cases hleft : s.tree.contains key.left with
        | true =>
          rw [Bool.not_true, if_neg Bool.false_ne_true, advance_run]
          exact ⟨.refl, h, rfl, hadvance⟩
        | false =>
          have why : c.top.contains key = true ∧ node.accuracy < resolution :=
            ⟨hkey, by omega⟩
          refine Ends.bind ((splitLeaf_ends h hnode hleft (.inr why)).mono (fun _ _ => id) ?_) ?_
          · rintro failure s' ⟨hm, -⟩
            exact ⟨hm, trivial⟩
          · rintro ⟨⟩ s₁ ⟨hm, hfull, -⟩
            rw [hl]
            refine ⟨hm, hfull, rfl, ?_⟩
            intro next hnext
            cases hnext
            exact contains_trans hkey (contains_left key)

/-- However a walk ends, it has made moves. -/
theorem sharpenFrom_moves (policy : Policy) (keys : Nat) {c : Cursor} (h : s.tree.FullUnder root)
    (hkey : ∀ key, c.current? = some key → c.top.contains key = true) :
    Ends (sharpenFrom policy source resolution keys c) s
      (fun _ s' => Moves source c.top resolution s s' ∧ s'.tree.FullUnder root)
      (fun _ s' => Moves source c.top resolution s s' ∧ True) := by
  induction keys generalizing s c with
  | zero => exact ⟨.refl, trivial⟩
  | succ keys ih =>
    rw [sharpenFrom]
    cases hcurrent : c.current? with
    | none => exact ⟨.refl, h⟩
    | some key =>
      apply (sharpenAt_moves policy h hcurrent (hkey key hcurrent)).bind
      rintro c' s₁ ⟨hm, hfull, htop, hnext⟩
      have hwalk := ih hfull (c := c') (by rwa [htop])
      rw [htop] at hwalk
      exact hwalk.after hm

theorem sharpen_moves (policy : Policy) (h : s.tree.FullUnder root) :
    Ends (sharpen policy source I resolution) s
      (fun _ s' => Moves source I resolution s s' ∧ True)
      (fun _ s' => Moves source I resolution s s' ∧ True) := by
  rw [sharpen, Ends, bind_of_ok (tree_run s)]
  refine Ends.bind (sharpenFrom_moves policy _ h ?_) ?_
  · intro key hkey
    cases hkey
    exact contains_self I
  · rintro ⟨⟩ s₁ ⟨hm, -⟩
    rw [Ends, bind_of_ok (searched_run s₁ I)]
    cases (s₁.tree.accuracy? I).all (· < resolution) with
    | true => exact ⟨hm, trivial⟩
    | false => exact ⟨hm, trivial⟩

end Work

end SignatureCache
