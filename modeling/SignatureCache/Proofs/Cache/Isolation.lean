import SignatureCache.Proofs.Cache.Steady
import SignatureCache.Proofs.Cache.Tour
import SignatureCache.Source.Transcript

/-!
# What a query leaves alone

What a query splits lies around or under its interval, and what it combines anew lies around that.
So a cached interval that is apart from its own keeps its node, and so does everything under it. A
root that grows is the one exception: it gets its links, while its value and its accuracy stay. As
this is shown for every single move, it does not matter whether the query is answered or breaks off
on the way.
-/

namespace SignatureCache

open DyadicInterval SignatureCache.Tree

variable {V : Type}

namespace Tree

variable {t t' t'' : Tree V} {J K : DyadicInterval} {node : Node V}

/-- The second tree has the nodes of the first one at `J` and under it, but for the links of `J` if
it had none. -/
structure SameUnder (J : DyadicInterval) (t t' : Tree V) : Prop where
  top : ∀ {node}, t.find? J = some node → t'.find? J = some node ∨
    node.parent? = none ∧ t'.find? J = some (node.linked J.parent J.sibling)
  below : ∀ {K}, J.contains K = true → K ≠ J → t'.find? K = t.find? K

theorem SameUnder.refl (J : DyadicInterval) (t : Tree V) : SameUnder J t t where
  top := .inl
  below _ _ := rfl

theorem SameUnder.of_find? (h : ∀ {K}, J.contains K = true → t'.find? K = t.find? K) :
    SameUnder J t t' where
  top hnode := .inl ((h (contains_self J)).trans hnode)
  below hK _ := h hK

/-- Links are set at most once. -/
theorem SameUnder.trans (h : SameUnder J t t') (h' : SameUnder J t' t'') : SameUnder J t t'' where
  top := by
    intro node hnode
    rcases h.top hnode with hsame | ⟨hparent, hlinked⟩
    · exact h'.top hsame
    · rcases h'.top hlinked with hsame | ⟨hnone, -⟩
      · exact .inr ⟨hparent, hsame⟩
      · cases hnone
  below hK hne := (h'.below hK hne).trans (h.below hK hne)

theorem SameUnder.contains (h : SameUnder J t t') (hJ : t.contains J = true)
    (hK : J.contains K = true) : t'.contains K = t.contains K := by
  by_cases hne : K = J
  · subst hne
    obtain ⟨node, hnode⟩ := exists_find?_of_contains hJ
    rw [hJ]
    rcases h.top hnode with hnode' | ⟨-, hnode'⟩
    · exact contains_of_find? hnode'
    · exact contains_of_find? hnode'
  · rw [contains_eq_isSome, contains_eq_isSome, h.below hK hne]

theorem SameUnder.isLeaf? (h : SameUnder J t t') (hJ : t.contains J = true) :
    t'.isLeaf? J = t.isLeaf? J := by
  have hleft := h.contains hJ (contains_left J)
  rcases halves?_cases J with ⟨fault, hl, -⟩ | ⟨hl, -⟩
  · rw [isLeaf?_eq_error t' hl, isLeaf?_eq_error t hl]
  · rw [isLeaf?_eq t' hl, isLeaf?_eq t hl, hleft]

/-- Value and accuracy stay, whatever happens to the links. -/
theorem SameUnder.eq_of_find? {node' : Node V} (h : SameUnder J t t')
    (hnode : t.find? J = some node) (hnode' : t'.find? J = some node') :
    node'.value = node.value ∧ node'.accuracy = node.accuracy := by
  rcases h.top hnode with hsame | ⟨-, hlinked⟩
  · cases hsame.symm.trans hnode'
    exact ⟨rfl, rfl⟩
  · cases hlinked.symm.trans hnode'
    exact ⟨rfl, rfl⟩

/-- Only the root has no parent. -/
theorem FullUnder.parent?_eq_none_iff {root : DyadicInterval} (h : t.FullUnder root)
    (hnode : t.find? J = some node) : node.parent? = none ↔ t.root? = some J := by
  rw [h.root?_eq, Option.some_inj, ← parent?_of_find? hnode]
  constructor
  · intro hnone
    by_contra hne
    rw [h.parent?_eq (contains_of_find? hnode) (Ne.symm hne)] at hnone
    cases hnone
  · rintro rfl
    exact h.unlinked.1

/-- In full trees the links change just for a root that is one no more. -/
theorem SameUnder.find?_eq (h : SameUnder J t t') (hfull : t.Full) (hfull' : t'.Full)
    (hnode : t.find? J = some node) :
    t'.find? J = some (if t.root? = some J ∧ t'.root? ≠ some J then
      node.linked J.parent J.sibling else node) := by
  have hJ := contains_of_find? hnode
  obtain ⟨root, hroot⟩ := hfull.exists_fullUnder hJ
  obtain ⟨root', hroot'⟩ :=
    hfull'.exists_fullUnder ((h.contains hJ (contains_self J)).trans hJ)
  rcases h.top hnode with hsame | ⟨hparent, hlinked⟩
  · rw [if_neg, hsame]
    rintro ⟨hold, hnew⟩
    exact hnew ((hroot'.parent?_eq_none_iff hsame).1 ((hroot.parent?_eq_none_iff hnode).2 hold))
  · rw [if_pos, hlinked]
    refine ⟨(hroot.parent?_eq_none_iff hnode).1 hparent, fun hnew => ?_⟩
    cases (hroot'.parent?_eq_none_iff hlinked).2 hnew

/-- Growth touches nothing under the root. -/
theorem FullUnder.sameUnder_grown {root : DyadicInterval} {rootNode : Node V} (h : t.FullUnder root)
    (hroot : t.find? root = some rootNode) (hJ : t.contains J = true) (neighbourValue value : V) :
    SameUnder J t (t.grown root rootNode neighbourValue value) := by
  have hc := h.root_contains hJ
  have hbelow : ∀ {K}, J.contains K = true → K ≠ root →
      (t.grown root rootNode neighbourValue value).find? K = t.find? K := by
    intro K hK hne
    have hK' := contains_trans hc hK
    apply find?_grown_of_ne _ _ hne
    · rintro rfl
      exact sibling_ne root (eq_of_contains_of_power_le hK' (by simp))
    · rintro rfl
      simp [not_contains_parent] at hK'
  constructor
  case top =>
    intro node hnode
    by_cases hne : J = root
    · subst hne
      cases hroot.symm.trans hnode
      refine .inr ⟨?_, find?_grown_root⟩
      rw [← parent?_of_find? hnode, h.unlinked.1]
    · exact .inl ((hbelow (contains_self J) hne).trans hnode)
  case below =>
    intro K hK hne
    apply hbelow hK
    rintro rfl
    exact hne (eq_of_contains_of_power_le hK (power_le_of_contains hc))

end Tree

namespace Work

variable {source : Source V} {I J : DyadicInterval} {resolution : Int} {s s' : Store V}

/-- A move changes at most the links of what is apart from the interval it is made for. -/
theorem Move.sameUnder (hm : Move source I resolution s s') (h : s.tree.Full) (hapart : Apart I J)
    (hJ : s.tree.contains J = true) : SameUnder J s.tree s'.tree := by
  cases hm with
  | ask => exact .refl J s.tree
  | hit => exact .refl J s.tree
  | compute => exact .refl J s.tree
  | plant hempty => simp [hempty] at hJ
  | grow hroot _ _ hnode => exact hroot.sameUnder_grown hnode hJ _ _
  | @split leaf node leftValue rightValue hnode hl why =>
    obtain ⟨root, hroot⟩ := h.exists_fullUnder hJ
    have hleaf := contains_of_find? hnode
    have hr := hroot.not_contains_right hleaf hl
    -- The leaf is around or under the interval, so neither half of it is under what is apart.
    have hno : J.contains leaf = false :=
      hapart.not_contains_nested (why.imp And.left And.left)
    have hleft : J.contains leaf.left = false := by
      apply not_contains_left hno
      rintro rfl
      simp [hJ] at hl
    have hright : J.contains leaf.right = false := by
      apply not_contains_right hno
      rintro rfl
      simp [hJ] at hr
    have hout : ∀ {K L : DyadicInterval}, J.contains K = true → J.contains L = false →
        K.contains L = false := by
      intro K L hK hL
      rw [Bool.eq_false_iff] at hL ⊢
      exact fun hKL => hL (contains_trans hK hKL)
    apply SameUnder.of_find?
    intro K hK
    rw [propagate_beside (hroot.halved hleaf hl leftValue rightValue)
      (contains_halved.2 (.inl rfl)) (hout hK hleft)]
    apply find?_halved_of_ne
    · rintro rfl
      simp [hK] at hleft
    · rintro rfl
      simp [hK] at hright

end Work

namespace Cache

open Work

/-- A request, answered or not, changes at most the links of a cached interval that is apart from
all that it is about. -/
theorem answer_sameUnder (cache : Cache V) (request : Request V) {J : DyadicInterval}
    (h : cache.store.tree.Full) (hJ : cache.store.tree.contains J = true)
    (apart : ∀ I ∈ request.intervals cache.dissection, Apart I J) :
    SameUnder J cache.store.tree
      (cache.answer request.source request.query request.resolution).2.store.tree := by
  have hkeeps := answer_keeps (P := fun s => s.tree.Full ∧ s.tree.contains J = true ∧
    SameUnder J cache.store.tree s.tree) cache request (fun _ hs => hs.1) ?_
      ⟨h, hJ, .refl J cache.store.tree⟩
  · exact hkeeps.2.2
  · rintro I hI - s s' ⟨hfull, hmem, hsame⟩ hm
    have hstep := hm.sameUnder hfull (apart I hI) hmem
    exact ⟨hm.full hfull, (hstep.contains hmem (contains_self J)).trans hmem, hsame.trans hstep⟩

/-- After any requests to an empty cache, one more request, answered or not and whatever its source,
leaves alone what no interval that it is about meets: such a cached interval keeps its value and its
accuracy, it stays a leaf or stays none, and no key is added or lost under it. Its links stay too,
but for those that a root gets when it is one no more. So a cached interval whose value or accuracy
is another one afterwards lies around or under an interval that was asked for. -/
theorem apart_after_request (policy : Policy) (dissection : Dissection)
    (requests : List (Request V)) (request : Request V) :
    let cache := ({ policy, dissection } : Cache V).after requests
    let t := cache.store.tree
    let t' := (cache.answer request.source request.query request.resolution).2.store.tree
    (∀ J node, t.find? J = some node →
      (∀ I ∈ request.intervals dissection, Disjoint I.range J.range) →
      t'.find? J = some (if t.root? = some J ∧ t'.root? ≠ some J then
        node.linked J.parent J.sibling else node) ∧
      t'.isLeaf? J = t.isLeaf? J ∧
      ∀ K, J.contains K = true → t'.contains K = t.contains K) ∧
    ∀ J node, t.find? J = some node → ∃ node', t'.find? J = some node' ∧
      (node'.value ≠ node.value ∨ node'.accuracy ≠ node.accuracy →
        ∃ I ∈ request.intervals dissection, I.contains J = true ∨ J.contains I = true) := by
  intro cache t t'
  have hdissection : cache.dissection = dissection := after_dissection _ requests
  have hfull : t.Full := after_full (.inl rfl)
  have hkeeps : t'.Full ∧ ∀ J, t.contains J = true → t'.contains J = true := by
    apply answer_keeps (P := fun s => s.tree.Full ∧ ∀ J, t.contains J = true →
      s.tree.contains J = true) cache request (fun _ hs => hs.1) _ ⟨hfull, fun _ => id⟩
    rintro I - - s s' ⟨hs, hkeys⟩ hm
    exact ⟨hm.full hs, fun J hJ => hm.contains hs (hkeys J hJ)⟩
  have hsame : ∀ {J}, t.contains J = true →
      (∀ I ∈ request.intervals dissection, Apart I J) → SameUnder J t t' := by
    intro J hJ apart
    exact answer_sameUnder cache request hfull hJ (hdissection ▸ apart)
  constructor
  · intro J node hnode hdisjoint
    have hJ := contains_of_find? hnode
    have h := hsame hJ fun I hI => disjoint_range_iff.1 (hdisjoint I hI)
    exact ⟨h.find?_eq hfull hkeeps.1 hnode, h.isLeaf? hJ, fun K => h.contains hJ⟩
  · intro J node hnode
    have hJ := contains_of_find? hnode
    obtain ⟨node', hnode'⟩ := exists_find?_of_contains (hkeeps.2 J hJ)
    refine ⟨node', hnode', ?_⟩
    contrapose!
    intro hno
    apply (hsame hJ _).eq_of_find? hnode hnode'
    intro I hI
    simpa [apart_iff_not_nested] using hno I hI

/-- The query grows the root `[0, 1)` twice, splits `[2, 4)`, and fails below `[3, 4)`. What was
cached before has its values still, and only the old root has got links. -/
theorem apart_after_growth :
    let T : Transcript := ⟨"v", [], false, some []⟩
    let refusing : Transcript := ⟨"w", [], false, some [⟨6, 1⟩]⟩
    let earlier : List (Request String) := [⟨T.source, .dyadic ⟨0, 0⟩, 1⟩]
    let request : Request String := ⟨refusing.source, .dyadic ⟨3, 0⟩, 1⟩
    let failed := (({} : Cache String).after earlier).answer request.source request.query
      request.resolution
    failed.1 = .error (.error (.computation ⟨6, 1⟩ "injected split")) ∧
      failed.2.store.tree.keys =
        [⟨0, -2⟩, ⟨0, -1⟩, ⟨0, 0⟩, ⟨0, 1⟩, ⟨1, 1⟩, ⟨1, 0⟩, ⟨1, -1⟩, ⟨2, 0⟩, ⟨3, 0⟩] ∧
      failed.2.store.tree.find? ⟨0, 0⟩ =
        some ⟨"(l0:1<v0:0 r1:1<v0:0)", 1, some ⟨0, -1⟩, some ⟨1, 0⟩⟩ ∧
      failed.2.store.tree.find? ⟨1, 1⟩ =
        some ⟨"r1:1<v0:0", 1, some ⟨0, 0⟩, some ⟨0, 1⟩⟩ := by
  intro T refusing earlier request
  dsimp only
  have hroot : (({} : Cache String).after earlier).store.tree.find? ⟨0, 0⟩ =
      some ⟨"(l0:1<v0:0 r1:1<v0:0)", 1, none, none⟩ := by
    simp only [earlier]
    cbv
  have hleaf : (({} : Cache String).after earlier).store.tree.find? ⟨1, 1⟩ =
      some ⟨"r1:1<v0:0", 1, some ⟨0, 0⟩, some ⟨0, 1⟩⟩ := by
    simp only [earlier]
    cbv
  have hfirst : (({} : Cache String).after earlier).store.tree.root? = some ⟨0, 0⟩ := by
    simp only [earlier]
    cbv
  have hgrown : ((({} : Cache String).after earlier).answer request.source request.query
      request.resolution).2.store.tree.root? = some ⟨0, -2⟩ := by
    simp only [request, earlier]
    cbv
  have hdisjoint : ∀ J : DyadicInterval, (⟨3, 0⟩ : DyadicInterval).contains J = false →
      J.contains ⟨3, 0⟩ = false →
      ∀ I ∈ request.intervals Dissection.onGrid, Disjoint I.range J.range := by
    intro J hno hno' I hI
    cases List.mem_singleton.1 hI
    exact disjoint_range_iff.2 (apart_iff_not_nested.2 ⟨hno, hno'⟩)
  obtain ⟨hapart, -⟩ := apart_after_request {} Dissection.onGrid earlier request
  refine ⟨?_, ?_, ?_, ?_⟩
  · simp only [request, earlier]
    cbv
  · simp only [request, earlier]
    cbv
  · have h := (hapart ⟨0, 0⟩ _ hroot (hdisjoint _ (by decide) (by decide))).1
    rw [if_pos] at h
    · exact h
    · exact ⟨hfirst, fun heq => by cases hgrown.symm.trans heq⟩
  · have h := (hapart ⟨1, 1⟩ _ hleaf (hdisjoint _ (by decide) (by decide))).1
    rw [if_neg] at h
    · exact h
    · rintro ⟨heq, -⟩
      cases hfirst.symm.trans heq

end Cache

end SignatureCache
