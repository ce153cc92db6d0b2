import SignatureCache.Proofs.Cache.Invariants
import SignatureCache.Proofs.Cache.Range
import SignatureCache.Proofs.Tree.Modest

/-!
# Steady and sound stores

What a walk relies on holds after any moves, also where a combination has broken one off: the tree
is full, accuracies are modest, and keys are in range. A store is sound if moreover accuracies are
exact and every key lies in its hemisphere, which takes sources that can combine and requests that
are not too coarse. All that is said about keys follows from one lemma about what the moves of a
query can add.
-/

namespace SignatureCache

open DyadicInterval SignatureCache.Tree

variable {V : Type}

/-- A store in which every walk finds its way. -/
structure Store.Steady (limit : Int) (s : Store V) : Prop where
  full : s.tree.Full
  modest : s.tree.Modest
  inRange : ∀ {key}, s.tree.contains key = true → InRange limit key

/-- A store in which every query finds what it needs. -/
structure Store.Sound (limit : Int) (s : Store V) : Prop extends s.Steady limit where
  exact : s.tree.Exact
  inside : ∀ {key}, s.tree.contains key = true → (hemisphere key).contains key = true

theorem Store.Steady.mono {limit limit' : Int} {s : Store V} (h : s.Steady limit)
    (hle : limit ≤ limit') : s.Steady limit' where
  full := h.full
  modest := h.modest
  inRange hkey :=
    have hin := h.inRange hkey
    ⟨hin.offset_ge, hin.offset_lt, hin.power_le.trans hle⟩

namespace Work

variable {source : Source V} {policy : Policy} {I R : DyadicInterval} {resolution limit : Int}
  {s s' : Store V}

/-! ### Modest accuracies -/

theorem Move.modest (hm : Move source I resolution s s') (h : s.tree.Full)
    (hmodest : s.tree.Modest) : s'.tree.Modest := by
  cases hm with
  | ask => exact hmodest
  | hit => exact hmodest
  | plant hempty =>
    rw [Store.planted, hempty]
    exact (exact_plant I _).modest
  | compute root => exact hmodest
  | grow hroot _ _ hnode => exact hmodest.grown hroot hnode
  | @split leaf node leftValue rightValue hnode hl _ _ =>
    have hleaf := contains_of_find? hnode
    obtain ⟨root, hroot⟩ := h.exists_fullUnder hleaf
    refine (propagate_induction (P := fun s' => s'.tree.Modest) ?_
      (hroot.halved hleaf hl leftValue rightValue) (hmodest.halved hroot hleaf hl _ _)
      (contains_halved.2 (.inl rfl))).2
    intro s' below b sib par value _ hmodest' hf hlt _
    exact hmodest'.put hf hlt value

theorem Moves.modest (hm : Moves source I resolution s s') (h : s.tree.Full)
    (hmodest : s.tree.Modest) : s'.tree.Full ∧ s'.tree.Modest := by
  apply hm.keep (P := fun s => s.tree.Full ∧ s.tree.Modest) _ ⟨h, hmodest⟩
  rintro s s' ⟨h, hmodest⟩ hm
  exact ⟨hm.full h, hm.modest h hmodest⟩

/-! ### What the moves of a query add -/

/-- What the interval asked for has, a root hands on to its parent and its sibling, and a leaf that
is split to its halves, all keys have. -/
theorem Move.keys {P : DyadicInterval → Prop} (hm : Move source I resolution s s')
    (hfull : s.tree.Full) (hmodest : s.tree.Modest) (asked : P I)
    (around : ∀ root, P root → SameSide root I → root.contains I = false →
      P root.parent ∧ P root.sibling)
    (below : ∀ leaf, P leaf →
      (leaf.contains I = true ∧ I ≠ leaf) ∨ (I.contains leaf = true ∧ leaf.power < resolution) →
      P leaf.left ∧ P leaf.right)
    (h : ∀ key, s.tree.contains key = true → P key) :
    ∀ key, s'.tree.contains key = true → P key := by
  intro key hkey
  cases hm with
  | ask => exact h key hkey
  | hit => exact h key hkey
  | compute root => exact h key hkey
  | plant hempty =>
    rw [Store.planted, contains_put, hempty, contains_empty, Bool.or_false,
      decide_eq_true_eq] at hkey
    exact hkey ▸ asked
  | @grow root node neighbourValue value hroot hside hout hnode hv hc =>
    obtain ⟨hparent, hsibling⟩ := around root (h root hroot.contains_root) hside hout
    rcases hroot.contains_grown.1 hkey with rfl | rfl | hold
    · exact hsibling
    · exact hparent
    · exact h key hold
  | @split leaf node leftValue rightValue hnode hl why hv =>
    have hleaf := contains_of_find? hnode
    obtain ⟨root, hroot⟩ := hfull.exists_fullUnder hleaf
    have hacc := (hmodest leaf node hnode).leaf hl
    obtain ⟨hleft, hright⟩ := below leaf (h leaf hleaf) (by rwa [hacc] at why)
    rw [(fullUnder_split source hroot hleaf hl leftValue rightValue).2, contains_halved] at hkey
    rcases hkey with rfl | rfl | hold
    · exact hleft
    · exact hright
    · exact h key hold

/-- Keys are never lost. -/
theorem Move.contains {key : DyadicInterval} (hm : Move source I resolution s s')
    (hfull : s.tree.Full) (hkey : s.tree.contains key = true) : s'.tree.contains key = true := by
  cases hm with
  | ask => exact hkey
  | hit => exact hkey
  | plant hempty => simp [hempty] at hkey
  | compute root => exact hkey
  | grow hroot => exact hroot.contains_grown.2 (.inr (.inr hkey))
  | @split leaf node leftValue rightValue hnode hl why hv =>
    have hleaf := contains_of_find? hnode
    obtain ⟨root, hroot⟩ := hfull.exists_fullUnder hleaf
    rw [(fullUnder_split source hroot hleaf hl leftValue rightValue).2, contains_halved]
    exact .inr (.inr hkey)

theorem Moves.contains {key : DyadicInterval} (hm : Moves source I resolution s s')
    (hfull : s.tree.Full) (hkey : s.tree.contains key = true) :
    s'.tree.contains key = true := by
  refine (hm.keep (P := fun s => s.tree.Full ∧ s.tree.contains key = true) ?_ ⟨hfull, hkey⟩).2
  rintro s s' ⟨hfull, hkey⟩ hm
  exact ⟨hm.full hfull, hm.contains hfull hkey⟩

/-- A query for an interval under `R` adds nothing outside `R`. -/
theorem Move.inside (hm : Move source I resolution s s') (hfull : s.tree.Full)
    (hmodest : s.tree.Modest) (hR : R.contains I = true)
    (h : ∀ key, s.tree.contains key = true → R.contains key = true) :
    ∀ key, s'.tree.contains key = true → R.contains key = true := by
  apply hm.keys hfull hmodest hR _ _ h
  · intro root hroot _ hout
    have hne : root ≠ R := by
      rintro rfl
      simp [hR] at hout
    have hparent := contains_parent_of_ne hroot hne
    exact ⟨hparent, contains_trans hparent (parent_contains_sibling root)⟩
  · intro leaf hleaf _
    exact ⟨contains_trans hleaf (contains_left leaf), contains_trans hleaf (contains_right leaf)⟩

/-! ### Steady stores -/

theorem steady_empty (limit : Int) : ({} : Store V).Steady limit where
  full := .inl rfl
  modest := modest_empty
  inRange := fun hkey => by simp at hkey

theorem Move.steady (hm : Move source I resolution s s')
    (hallow : policy.allowInterval I resolution = .ok ())
    (h : s.Steady policy.maxResolution) : s'.Steady policy.maxResolution where
  full := hm.full h.full
  modest := hm.modest h.full h.modest
  inRange := by
    have hI : InRange policy.maxResolution I :=
      inRange_of_allowInterval hallow (contains_self I) (le_max_right _ _)
    refine @(hm.keys h.full h.modest hI ?_ ?_ fun _ => h.inRange)
    · intro root hroot _ _
      exact ⟨hroot.of_contains (parent_contains root), hroot.sibling⟩
    · rintro leaf - (⟨hc, hne⟩ | ⟨hc, hlt⟩)
      · exact hI.halves_above hc hne
      · have hle : leaf.power + 1 ≤ max resolution I.power := by omega
        exact ⟨inRange_of_allowInterval hallow (contains_trans hc (contains_left leaf)) hle,
          inRange_of_allowInterval hallow (contains_trans hc (contains_right leaf)) hle⟩

theorem Moves.steady (hm : Moves source I resolution s s')
    (hallow : policy.allowInterval I resolution = .ok ())
    (h : s.Steady policy.maxResolution) : s'.Steady policy.maxResolution :=
  hm.keep (fun _ _ h hm => hm.steady hallow h) h

/-! ### Hemispheres -/

/-- What moves add for an interval in its hemisphere lies in its own. -/
theorem Move.inHemispheres (hm : Move source I resolution s s') (hfull : s.tree.Full)
    (hmodest : s.tree.Modest) (hI : (hemisphere I).contains I = true)
    (h : ∀ key, s.tree.contains key = true → (hemisphere key).contains key = true) :
    ∀ key, s'.tree.contains key = true → (hemisphere key).contains key = true := by
  have hnear : ∀ {J K : DyadicInterval}, (hemisphere J).contains K = true → SameSide J K →
      (hemisphere K).contains K = true := by
    intro J K hc hside
    rwa [← hemisphere_eq_of_sameSide hside]
  apply hm.keys hfull hmodest hI _ _ h
  · intro root hroot hside hout
    have hne : root ≠ hemisphere root := by
      intro heq
      rw [heq, hemisphere_eq_of_sameSide hside, hI] at hout
      cases hout
    have hparent := contains_parent_of_ne hroot hne
    have hsides := sameSide_of_contains (parent_contains root)
    exact ⟨hnear hparent hsides.symm, hnear
      (contains_trans hparent (parent_contains_sibling root))
      (hsides.symm.trans (sameSide_of_contains (parent_contains_sibling root)))⟩
  · intro leaf hleaf _
    exact ⟨hnear (contains_trans hleaf (contains_left leaf))
        (sameSide_of_contains (contains_left leaf)),
      hnear (contains_trans hleaf (contains_right leaf))
        (sameSide_of_contains (contains_right leaf))⟩

/-! ### Sound stores -/

theorem sound_empty (limit : Int) : ({} : Store V).Sound limit where
  toSteady := steady_empty limit
  exact := exact_empty
  inside := fun hkey => by simp at hkey

theorem Move.sound (hm : Move source I resolution s s') (combines : source.Combines)
    (hallow : policy.allowInterval I resolution = .ok ())
    (hI : (hemisphere I).contains I = true) (h : s.Sound policy.maxResolution) :
    s'.Sound policy.maxResolution where
  toSteady := hm.steady hallow h.toSteady
  exact := hm.exact combines h.full h.exact
  inside := @(hm.inHemispheres h.full h.modest hI fun _ => h.inside)

theorem Moves.sound (hm : Moves source I resolution s s') (combines : source.Combines)
    (hallow : policy.allowInterval I resolution = .ok ())
    (hI : (hemisphere I).contains I = true) (h : s.Sound policy.maxResolution) :
    s'.Sound policy.maxResolution :=
  hm.keep (fun _ _ h hm => hm.sound combines hallow hI h) h

end Work

namespace Cache

theorem answer_steady (cache : Cache V) (request : Request V)
    (h : cache.store.Steady cache.policy.maxResolution) :
    (cache.answer request.source request.query request.resolution).2.store.Steady
      cache.policy.maxResolution :=
  answer_keeps cache request (fun _ hs => hs.full)
    (fun _ _ hallow _ _ hs hm => hm.steady hallow hs) h

theorem after_steady (cache : Cache V) (requests : List (Request V))
    (h : cache.store.Steady cache.policy.maxResolution) :
    (cache.after requests).store.Steady cache.policy.maxResolution :=
  after_induction (fun _ hs => hs.full) (fun _ _ _ _ hallow _ _ hs hm => hm.steady hallow hs) h

end Cache

end SignatureCache
