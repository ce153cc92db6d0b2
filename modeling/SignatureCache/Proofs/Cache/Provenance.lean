import Mathlib
import SignatureCache.Proofs.Cache.Deeds
import SignatureCache.Proofs.Cache.Resumption

/-!
# Where the values of leaves come from

The value of a leaf has never been combined. It was handed down: a seed, which is the first root or
the neighbour of a root that has grown, was given a fresh value, and each split on the way from the
seed to the leaf gave the halves theirs. Values are combined above the halves of a split only, so
what a propagation sets is no leaf any more, and no split reads it. Looking back on all deeds, seeds
lie apart, and nothing is created, computed afresh or split twice.
-/

namespace SignatureCache

open DyadicInterval SignatureCache.Tree

variable {V : Type}

/-- What the source answers does not depend on the number of cached nodes. -/
structure Source.Blind (source : Source V) : Prop where
  fresh : ∀ nodes I, source.fresh nodes I = source.fresh 0 I
  split : ∀ nodes value left right,
    source.split nodes value left right = source.split 0 value left right

/-- The value handed down to an interval from the one some levels above it: that one's fresh value,
split level by level, with the half on the way taken from each split. -/
def Source.handedDown (source : Source V) : Nat → DyadicInterval → Except Error V
  | 0, key => source.fresh 0 key
  | levels + 1, key => do
    let value ← source.handedDown levels key.parent
    let (leftValue, rightValue) ← source.split 0 value key.parent.left key.parent.right
    match key.half with
    | .left => return leftValue
    | .right => return rightValue

theorem Transcript.blind (T : Transcript) (h : T.showsNodes = false) : T.source.Blind where
  fresh _ _ := by simp [Transcript.source, Transcript.record, h]
  split _ _ _ _ := by
    simp only [Transcript.source]
    cases T.refusedHalves with
    | none => rfl
    | some refused => simp [Transcript.record, h]

/-- Whoever withholds from a blind source gives no other values than it does. -/
theorem Source.Withholds.fresh_of_ok {withheld source : Source V} {nodes : Nat}
    {I : DyadicInterval} {value : V} (h : withheld.Withholds source) (blind : source.Blind)
    (hv : withheld.fresh nodes I = .ok value) : source.fresh 0 I = .ok value := by
  rw [← blind.fresh nodes]
  rcases h.fresh nodes I with heq | ⟨error, herror⟩
  · rwa [← heq]
  · rw [herror] at hv
    cases hv

theorem Source.Withholds.split_of_ok {withheld source : Source V} {nodes : Nat} {value : V}
    {left right : DyadicInterval} {values : V × V} (h : withheld.Withholds source)
    (blind : source.Blind) (hv : withheld.split nodes value left right = .ok values) :
    source.split 0 value left right = .ok values := by
  rw [← blind.split nodes]
  rcases h.split nodes value left right with heq | ⟨error, herror⟩
  · rwa [← heq]
  · rw [herror] at hv
    cases hv

/-- Both halves are handed what the split of the value handed to the interval gives. -/
theorem Source.handedDown_halves {source : Source V} {levels : Nat} {key : DyadicInterval}
    {value leftValue rightValue : V} (h : source.handedDown levels key = .ok value)
    (hv : source.split 0 value key.left key.right = .ok (leftValue, rightValue)) :
    source.handedDown (levels + 1) key.left = .ok leftValue ∧
      source.handedDown (levels + 1) key.right = .ok rightValue := by
  constructor
  · simp [handedDown, h, hv, bind, Except.bind, pure, Except.pure]
  · simp [handedDown, h, hv, bind, Except.bind, pure, Except.pure]

namespace Tree

/-- Every leaf has the value handed down to it from a seed around it. -/
def Handed (source : Source V) (seeds : List DyadicInterval) (t : Tree V) : Prop :=
  ∀ leaf node, t.find? leaf = some node → t.contains leaf.left = false →
    ∃ seed ∈ seeds, seed.contains leaf = true ∧
      source.handedDown (leaf.power - seed.power).toNat leaf = .ok node.value

variable {source : Source V} {seeds : List DyadicInterval} {t t' : Tree V}
  {root leaf I : DyadicInterval} {node : Node V}

theorem Handed.mono {more : List DyadicInterval} (h : Handed source seeds t)
    (hsub : seeds ⊆ more) : Handed source more t := by
  intro leaf node hnode hl
  obtain ⟨seed, hseed, hvalue⟩ := h leaf node hnode hl
  exact ⟨seed, hsub hseed, hvalue⟩

/-- Only the leaves count. -/
theorem Handed.congr (h : Handed source seeds t)
    (hkeys : ∀ key, t'.contains key = t.contains key)
    (hleaf : ∀ leaf, t.contains leaf.left = false → t'.find? leaf = t.find? leaf) :
    Handed source seeds t' := by
  intro leaf node hnode hl
  rw [hkeys] at hl
  rw [hleaf leaf hl] at hnode
  exact h leaf node hnode hl

theorem handed_empty (source : Source V) (seeds : List DyadicInterval) :
    Handed source seeds (empty : Tree V) := by
  intro leaf node hnode
  simp at hnode

/-- A seed is handed its own fresh value. -/
theorem handed_seed {value : V} (hv : source.fresh 0 I = .ok value) (hI : I ∈ seeds) :
    ∃ seed ∈ seeds, seed.contains I = true ∧
      source.handedDown (I.power - seed.power).toNat I = .ok value :=
  ⟨I, hI, contains_self I, by rwa [sub_self]⟩

theorem handed_plant (hv : source.fresh 0 I = .ok node.value)
    (hI : I ∈ seeds) : Handed source seeds ((empty : Tree V).put I node) := by
  intro leaf node' hnode hl
  rw [find?_put, find?_empty] at hnode
  split at hnode
  · next heq =>
    cases hnode
    exact heq ▸ handed_seed hv hI
  · cases hnode

theorem Handed.grown {neighbourValue value : V} (h : Handed source seeds t)
    (hroot : t.FullUnder root) (hnode : t.find? root = some node)
    (hv : source.fresh 0 root.sibling = .ok neighbourValue) (hmem : root.sibling ∈ seeds) :
    Handed source seeds (t.grown root node neighbourValue value) := by
  intro leaf node' hleaf hl
  have hcontains : ∀ key, t.contains key = true →
      (t.grown root node neighbourValue value).contains key = true :=
    fun key hkey => hroot.contains_grown.2 (.inr (.inr hkey))
  rcases hroot.contains_grown.1 (contains_of_find? hleaf) with rfl | rfl | hkey
  · rw [find?_grown_sibling] at hleaf
    cases hleaf
    exact handed_seed hv hmem
  · -- The new root has the old one as a half.
    have hfull : (t.grown root node neighbourValue value).FullUnder root.parent := hroot.grown
    have hparent := hfull.not_contains_right hfull.contains_root hl
    have hold := hcontains root hroot.contains_root
    rcases eq_left_or_eq_right root with heq | heq
    · rw [← heq, hold] at hl
      cases hl
    · rw [← heq, hold] at hparent
      cases hparent
  · have hold : t.contains leaf.left = false := by
      rw [Bool.eq_false_iff] at hl ⊢
      exact fun hleft => hl (hcontains _ hleft)
    by_cases heq : leaf = root
    · subst heq
      rw [find?_grown_root] at hleaf
      cases hleaf
      exact h leaf node hnode hold
    · rw [hroot.find?_grown hkey heq] at hleaf
      exact h leaf node' hleaf hold

theorem Handed.halved {leftValue rightValue : V} (h : Handed source seeds t)
    (hroot : t.FullUnder root) (hnode : t.find? leaf = some node)
    (hl : t.contains leaf.left = false)
    (hv : source.split 0 node.value leaf.left leaf.right = .ok (leftValue, rightValue)) :
    Handed source seeds (t.halved leaf leftValue rightValue) := by
  obtain ⟨seed, hseed, hc, hvalue⟩ := h leaf node hnode hl
  have hpower := power_le_of_contains hc
  have hlevels : (leaf.power + 1 - seed.power).toNat = (leaf.power - seed.power).toNat + 1 := by
    omega
  obtain ⟨hleft, hright⟩ := Source.handedDown_halves hvalue hv
  intro key node' hkey hno
  rcases contains_halved.1 (contains_of_find? hkey) with rfl | rfl | hold
  · rw [find?_halved_left] at hkey
    cases hkey
    refine ⟨seed, hseed, contains_trans hc (contains_left leaf), ?_⟩
    rwa [left_power, hlevels]
  · rw [find?_halved_right] at hkey
    cases hkey
    refine ⟨seed, hseed, contains_trans hc (contains_right leaf), ?_⟩
    rwa [right_power, hlevels]
  · rw [hroot.find?_halved (contains_of_find? hnode) hl hold] at hkey
    apply h key node' hkey
    rw [Bool.eq_false_iff] at hno ⊢
    exact fun hleft => hno (contains_halved.2 (.inr (.inr hleft)))

end Tree

namespace Work

variable {source withheld : Source V} {deed : Deed} {deeds before : List Deed}
  {seeds : List DyadicInterval} {root below leaf : DyadicInterval} {s s' : Store V}

/-- A propagation sets no leaf, as what it sets has halves. -/
theorem propagate_leaves (source : Source V) (h : s.tree.FullUnder root)
    (hbelow : s.tree.contains below = true) :
    (∀ key, (final (propagate source below) s).tree.contains key = s.tree.contains key) ∧
      ∀ leaf, s.tree.contains leaf.left = false →
        (final (propagate source below) s).tree.find? leaf = s.tree.find? leaf := by
  refine (propagate_induction (P := fun s' => (∀ key, s'.tree.contains key = s.tree.contains key) ∧
    ∀ leaf, s.tree.contains leaf.left = false → s'.tree.find? leaf = s.tree.find? leaf) ?_ h
    ⟨fun _ => rfl, fun _ _ => rfl⟩ hbelow).2
  intro s' below b sib par value hfull ⟨hkeys, hsame⟩ hf _ _
  have hparent := contains_of_find? hf.parent
  refine ⟨?_, ?_⟩
  · intro key
    rw [Store.improved, contains_put_of_contains hparent, hkeys]
  · intro leaf hl
    rw [Store.improved, find?_put_of_ne, hsame leaf hl]
    rintro rfl
    -- One of the halves of the parent is `below`, so there are two of them.
    have hcached := contains_of_find? hf.self
    rw [← hkeys] at hl
    have hr := hfull.not_contains_right hparent hl
    rcases eq_left_or_eq_right below with heq | heq
    · rw [← heq, hcached] at hl
      cases hl
    · rw [← heq, hcached] at hr
      cases hr

/-! ### What a single deed can do -/

/-- The keys that a deed adds are new, and it adds no others. -/
theorem Does.created (hd : Does source deed s s') (h : s.tree.Full) :
    deed.created.Nodup ∧ (∀ key ∈ deed.created, s.tree.contains key = false) ∧
      ∀ key, s'.tree.contains key = true ↔ key ∈ deed.created ∨ s.tree.contains key = true := by
  have hnone : ∀ {key}, s.tree.contains key = true ↔
      key ∈ ([] : List DyadicInterval) ∨ s.tree.contains key = true := by
    simp
  cases hd with
  | ask => exact ⟨.nil, nofun, fun _ => hnone⟩
  | hit => exact ⟨.nil, nofun, fun _ => hnone⟩
  | compute => exact ⟨.nil, nofun, fun _ => hnone⟩
  | plant hempty =>
    refine ⟨List.nodup_singleton _, ?_, ?_⟩
    · intro key _
      rw [hempty, contains_empty]
    · intro key
      rw [Store.planted, contains_put, Bool.or_eq_true, decide_eq_true_eq, eq_comm (b := key)]
      exact or_congr_left List.mem_singleton.symm
  | @grow _ root node neighbourValue value hroot =>
    refine ⟨?_, ?_, ?_⟩
    · simpa [Deed.created] using (parent_ne_sibling root).symm
    · simp [Deed.created, hroot.not_contains_sibling_root, hroot.not_contains_parent_root]
    · intro key
      simp [Store.grown, hroot.contains_grown, Deed.created, or_assoc]
  | @split _ leaf node leftValue rightValue hnode hl =>
    have hleaf := contains_of_find? hnode
    obtain ⟨root, hroot⟩ := h.exists_fullUnder hleaf
    refine ⟨?_, ?_, ?_⟩
    · simpa [Deed.created] using left_ne_right leaf leaf
    · simp [Deed.created, hl, hroot.not_contains_right hleaf hl]
    · intro key
      rw [(fullUnder_split source hroot hleaf hl leftValue rightValue).2, contains_halved]
      simp [Deed.created, or_assoc]

/-- What a deed splits had no halves before and has them after. -/
theorem Does.halved (hd : Does source deed s s') (h : s.tree.Full) :
    deed.halved.Nodup ∧ ∀ leaf ∈ deed.halved, s.tree.contains leaf.left = false ∧
      s'.tree.contains leaf.left = true := by
  have hkeys := (hd.created h).2.2
  cases hd with
  | split _ hl =>
    refine ⟨List.nodup_singleton _, ?_⟩
    intro leaf hmem
    rw [Deed.halved, List.mem_singleton] at hmem
    subst hmem
    exact ⟨hl, (hkeys _).2 (.inl List.mem_cons_self)⟩
  | _ => exact ⟨.nil, nofun⟩

/-- A new seed and a key that was there before do not meet. -/
theorem Does.seeds_apart (hd : Does source deed s s') :
    deed.seeds ⊆ deed.created ∧ (∀ seed ∈ deed.seeds, ∀ other ∈ deed.seeds, seed = other) ∧
      ∀ seed ∈ deed.seeds, ∀ key, s.tree.contains key = true →
        seed.contains key = false ∧ key.contains seed = false := by
  cases hd with
  | plant hempty =>
    refine ⟨List.Subset.refl _, by simp [Deed.seeds], ?_⟩
    intro seed _ key hkey
    simp [hempty] at hkey
  | @grow _ root node neighbourValue value hroot =>
    refine ⟨by simp [Deed.seeds, Deed.created], by simp [Deed.seeds], ?_⟩
    intro seed hseed key hkey
    rw [Deed.seeds, List.mem_singleton] at hseed
    subst hseed
    have hno := not_sibling_contains (hroot.root_contains hkey)
    refine ⟨hno, ?_⟩
    rw [Bool.eq_false_iff]
    intro hc
    -- A key around the sibling is no coarser than the root, so it is the sibling.
    have hpower := power_le_of_contains (hroot.root_contains hkey)
    rw [← sibling_power] at hpower
    rw [← eq_of_contains_of_power_le hc hpower, contains_self] at hno
    cases hno
  | _ => exact ⟨nofun, nofun, nofun⟩

/-- Whoever withholds from a blind source gives values that it would hand down. -/
theorem Does.handed (hd : Does withheld deed s s') (sources : withheld.Withholds source)
    (blind : source.Blind) (h : s.tree.Full) (hseeds : deed.seeds ⊆ seeds)
    (hs : s.tree.Handed source seeds) : s'.tree.Handed source seeds := by
  cases hd with
  | ask => exact hs
  | hit => exact hs
  | compute => exact hs
  | plant hempty hv =>
    rw [Store.planted, hempty]
    exact handed_plant (sources.fresh_of_ok blind hv) (hseeds List.mem_cons_self)
  | grow hroot hnode hv =>
    exact hs.grown hroot hnode (sources.fresh_of_ok blind hv) (hseeds List.mem_cons_self)
  | @split _ leaf node leftValue rightValue hnode hl hv =>
    have hleaf := contains_of_find? hnode
    obtain ⟨root, hroot⟩ := h.exists_fullUnder hleaf
    obtain ⟨hkeys, hsame⟩ := propagate_leaves withheld (s := s.halved leaf leftValue rightValue)
      (hroot.halved hleaf hl leftValue rightValue) (contains_halved.2 (.inl rfl))
    exact (hs.halved hroot hnode hl (sources.split_of_ok blind hv)).congr hkeys hsame

/-! ### What all deeds together can do -/

/-- What is known of a store from all the deeds that led to it. -/
structure Ledger (source : Source V) (deeds : List Deed) (s : Store V) : Prop where
  full : s.tree.Full
  created : (deeds.flatMap Deed.created).Nodup
  mem_created : ∀ key, key ∈ deeds.flatMap Deed.created ↔ s.tree.contains key = true
  computed : source.Combines →
    (deeds.flatMap Deed.computed).Sublist (deeds.flatMap Deed.created)
  halved : (deeds.flatMap Deed.halved).Nodup
  mem_halved : ∀ leaf ∈ deeds.flatMap Deed.halved, s.tree.contains leaf.left = true
  seeds : deeds.flatMap Deed.seeds ⊆ deeds.flatMap Deed.created
  apart : ∀ seed ∈ deeds.flatMap Deed.seeds, ∀ other ∈ deeds.flatMap Deed.seeds,
    seed.contains other = true → seed = other
  handed : s.tree.Handed source (deeds.flatMap Deed.seeds)

theorem ledger_empty (source : Source V) : Ledger source [] ({} : Store V) where
  full := .inl rfl
  created := .nil
  mem_created key := by simp
  computed _ := .refl _
  halved := .nil
  mem_halved := nofun
  seeds := List.Subset.refl _
  apart := nofun
  handed := handed_empty source []

theorem Does.computed (hd : Does withheld deed s s') (combines : withheld.Combines) :
    deed.computed.Sublist deed.created := by
  cases hd with
  | @compute _ root node neighbourValue fault _ _ _ hc =>
    obtain ⟨value, hv⟩ := combines _ node.value neighbourValue root.half
    cases hc.symm.trans hv
  | grow => exact List.singleton_sublist.2 List.mem_cons_self
  | plant => exact .refl _
  | _ => exact List.nil_sublist _

theorem Ledger.step (h : Ledger source before s) (hd : Does withheld deed s s')
    (sources : withheld.Withholds source) (blind : source.Blind) :
    Ledger source (before ++ [deed]) s' := by
  obtain ⟨hnodup, hnew, hkeys⟩ := hd.created h.full
  obtain ⟨hnodup', hhalved⟩ := hd.halved h.full
  obtain ⟨hsub, hone, hapart⟩ := hd.seeds_apart
  have hold : ∀ key, s.tree.contains key = true → s'.tree.contains key = true :=
    fun key hkey => (hkeys key).2 (.inr hkey)
  have hseed : ∀ seed ∈ before.flatMap Deed.seeds, s.tree.contains seed = true :=
    fun seed hmem => (h.mem_created seed).1 (h.seeds hmem)
  have hflat : ∀ f : Deed → List DyadicInterval,
      (before ++ [deed]).flatMap f = before.flatMap f ++ f deed := by
    simp
  constructor
  case full => exact hd.full h.full
  case created =>
    rw [hflat, List.nodup_append]
    refine ⟨h.created, hnodup, ?_⟩
    rintro key hmem _ hmem' rfl
    have hno := hnew key hmem'
    rw [(h.mem_created key).1 hmem] at hno
    cases hno
  case mem_created =>
    intro key
    rw [hflat, List.mem_append, h.mem_created, hkeys, or_comm]
  case computed =>
    intro combines
    rw [hflat, hflat]
    refine (h.computed combines).append (hd.computed ?_)
    intro nodes a b half
    rw [sources.combine]
    exact combines nodes a b half
  case halved =>
    rw [hflat, List.nodup_append]
    refine ⟨h.halved, hnodup', ?_⟩
    rintro leaf hmem _ hmem' rfl
    have hno := (hhalved leaf hmem').1
    rw [h.mem_halved leaf hmem] at hno
    cases hno
  case mem_halved =>
    intro leaf hmem
    rw [hflat, List.mem_append] at hmem
    exact hmem.elim (fun hmem => hold _ (h.mem_halved leaf hmem)) fun hmem => (hhalved leaf hmem).2
  case seeds =>
    rw [hflat, hflat]
    exact List.append_subset.2 ⟨List.Subset.trans h.seeds (List.subset_append_left _ _),
      List.Subset.trans hsub (List.subset_append_right _ _)⟩
  case apart =>
    intro seed hmem other hmem' hc
    rw [hflat, List.mem_append] at hmem hmem'
    rcases hmem with hmem | hmem <;> rcases hmem' with hmem' | hmem'
    · exact h.apart seed hmem other hmem' hc
    · rw [(hapart other hmem' seed (hseed seed hmem)).2] at hc
      cases hc
    · rw [(hapart seed hmem other (hseed other hmem')).1] at hc
      cases hc
    · exact hone seed hmem other hmem'
  case handed =>
    rw [hflat]
    exact hd.handed sources blind h.full (List.subset_append_right _ _)
      (h.handed.mono (List.subset_append_left _ _))

end Work

namespace Cache

open Work

variable {requests : List (Request V)} {deeds : List Deed} {source : Source V}

theorem History.ledger {policy : Policy} {dissection : Dissection} (blind : source.Blind)
    (sources : ∀ request ∈ requests, request.source.Withholds source)
    (h : History { policy, dissection } requests deeds) :
    Ledger source deeds (({ policy, dissection } : Cache V).after requests).store :=
  h.induction []
    (fun request hmem _ _ _ _ hs hd => hs.step hd (sources request hmem) blind)
    (ledger_empty source)

/-- Any requests to an empty cache, answered or not, have a history of deeds, which may go on with
those of a query that has not ended yet. If all sources give what one blind source gives, or refuse
to, nothing has been created, computed afresh or split twice, and every leaf lies in exactly one
seed, whose fresh value was split down to the leaf's value. -/
theorem provenance_after_requests (source : Source V) (blind : source.Blind) (policy : Policy)
    (dissection : Dissection) (requests : List (Request V))
    (sources : ∀ request ∈ requests, request.source.Withholds source) :
    let cache : Cache V := { policy, dissection }
    (∃ deeds, History cache requests deeds) ∧
    ∀ earlier, History cache requests earlier →
    ∀ (withheld : Source V) later s, withheld.Withholds source →
      Trace withheld later (cache.after requests).store s →
      let deeds := earlier ++ later
      (deeds.flatMap Deed.created).Nodup ∧
      (∀ key, key ∈ deeds.flatMap Deed.created ↔ s.tree.contains key = true) ∧
      (source.Combines → (deeds.flatMap Deed.computed).Nodup) ∧
      (deeds.flatMap Deed.halved).Nodup ∧
      ∀ leaf node, s.tree.find? leaf = some node → s.tree.contains leaf.left = false →
        ∃ seed ∈ deeds.flatMap Deed.seeds, seed.contains leaf = true ∧
          (∀ other ∈ deeds.flatMap Deed.seeds, other.contains leaf = true → other = seed) ∧
          source.handedDown (leaf.power - seed.power).toNat leaf = .ok node.value := by
  intro cache
  refine ⟨exists_history cache requests (.inl rfl), ?_⟩
  intro earlier hhistory withheld later s hwithheld htrace deeds
  have h : Ledger source deeds s :=
    htrace.induction (fun _ _ _ _ hs hd => hs.step hd hwithheld blind)
      (hhistory.ledger blind sources)
  refine ⟨h.created, h.mem_created, fun combines => h.created.sublist (h.computed combines),
    h.halved, ?_⟩
  intro leaf node hnode hl
  obtain ⟨seed, hseed, hc, hvalue⟩ := h.handed leaf node hnode hl
  refine ⟨seed, hseed, hc, ?_, hvalue⟩
  intro other hother hc'
  rcases contains_or_contains hc' hc with hcontains | hcontains
  · exact h.apart other hother seed hseed hcontains
  · exact (h.apart seed hseed other hother hcontains).symm

/-- A refused split and its retry, under a root that has grown by then. The first root has a
combined value, and the leaf still comes from the fresh one. -/
theorem provenance_after_retry :
    let T : Transcript := ⟨"v", [], false, some []⟩
    let W : Transcript := ⟨"v", [], false, some [⟨1, 2⟩]⟩
    let requests : List (Request String) :=
      [⟨W.source, .dyadic ⟨0, 0⟩, 2⟩, ⟨T.source, .dyadic ⟨1, 0⟩, 0⟩, ⟨T.source, .dyadic ⟨0, 0⟩, 2⟩]
    let t := (({} : Cache String).after requests).store.tree
    (t.find? ⟨0, 0⟩).map Node.value =
        some "((l0:2<l0:1<v0:0 r1:2<l0:1<v0:0) (l2:2<r1:1<v0:0 r3:2<r1:1<v0:0))" ∧
      (t.find? ⟨1, 2⟩).map Node.value = some "r1:2<l0:1<v0:0" ∧
      ∃ deeds, History ({} : Cache String) requests deeds ∧
        (deeds.flatMap Deed.created).Nodup ∧ (deeds.flatMap Deed.computed).Nodup ∧
        (deeds.flatMap Deed.halved).Nodup ∧
        ∃ seed ∈ deeds.flatMap Deed.seeds, seed.contains ⟨1, 2⟩ = true ∧
          T.source.handedDown (2 - seed.power).toNat ⟨1, 2⟩ = .ok "r1:2<l0:1<v0:0" := by
  dsimp only
  have hsources := Transcript.withholds "v" false []
  obtain ⟨⟨deeds, hhistory⟩, hall⟩ := provenance_after_requests
    (Transcript.source ⟨"v", [], false, some []⟩) (Transcript.blind _ rfl) {} Dissection.onGrid
    [⟨Transcript.source ⟨"v", [], false, some [⟨1, 2⟩]⟩, .dyadic ⟨0, 0⟩, 2⟩,
      ⟨Transcript.source ⟨"v", [], false, some []⟩, .dyadic ⟨1, 0⟩, 0⟩,
      ⟨Transcript.source ⟨"v", [], false, some []⟩, .dyadic ⟨0, 0⟩, 2⟩]
    (by
      intro request hrequest
      simp only [List.mem_cons, List.not_mem_nil, or_false] at hrequest
      rcases hrequest with rfl | rfl | rfl
      · exact hsources _
      · exact hsources _
      · exact hsources _)
  obtain ⟨hcreated, -, hcomputed, hhalved, hleaves⟩ :=
    hall deeds hhistory _ [] _ (hsources []) (.refl _)
  simp only [List.append_nil] at hcreated hcomputed hhalved hleaves
  have hvalue : ((({} : Cache String).after
      [⟨Transcript.source ⟨"v", [], false, some [⟨1, 2⟩]⟩, .dyadic ⟨0, 0⟩, 2⟩,
        ⟨Transcript.source ⟨"v", [], false, some []⟩, .dyadic ⟨1, 0⟩, 0⟩,
        ⟨Transcript.source ⟨"v", [], false, some []⟩, .dyadic ⟨0, 0⟩, 2⟩]).store.tree.find?
          ⟨1, 2⟩).map Node.value = some "r1:2<l0:1<v0:0" := by
    cbv
  refine ⟨by cbv, hvalue, deeds, hhistory, hcreated, hcomputed (Transcript.combines _), hhalved,
    ?_⟩
  obtain ⟨node, hnode, heq⟩ := Option.map_eq_some_iff.1 hvalue
  obtain ⟨seed, hseed, hc, -, hhanded⟩ := hleaves ⟨1, 2⟩ node hnode (by cbv)
  exact ⟨seed, hseed, hc, heq ▸ hhanded⟩

end Cache

end SignatureCache
