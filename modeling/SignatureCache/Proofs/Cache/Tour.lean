import SignatureCache.Proofs.Cache.Steady
import SignatureCache.Proofs.Tree.Walk

/-!
# Sharpening as a recursion

The walk that sharpens an interval moves a cursor through a tree that grows under it. `tour` is what
it comes to: it goes through the halves of a key after the key itself, the left half first, and
passes or splits what the walk passes or splits. Accuracies only have to be modest for this, so it
is so in every store that requests can leave. The number of keys met shows that the walk comes to
its end.
-/

namespace SignatureCache

namespace Work

open DyadicInterval SignatureCache.Tree

variable {V : Type}

/-- Goes through the keys under a key down to fewer than `levels` levels below it. What is accurate
is passed, and a leaf that is not is split before its halves are gone through. -/
def tour (policy : Policy) (source : Source V) (desired : Int) : Nat → DyadicInterval → Work V Unit
  | 0, _ => return
  | levels + 1, key => do
    let t ← tree
    let accuracy ← orMissing (.cursorMissing key) (t.accuracy? key)
    let leaf ← orFault (t.isLeaf? key)
    if desired ≤ accuracy ∧ (policy.skipAccurate || leaf) then return
    if leaf then splitLeaf source key
    tour policy source desired levels key.left
    tour policy source desired levels key.right

/-- Goes through the keys under both halves of a key. -/
def tourHalves (policy : Policy) (source : Source V) (desired : Int) (levels : Nat)
    (key : DyadicInterval) : Work V Unit := do
  tour policy source desired levels key.left
  tour policy source desired levels key.right

variable {source : Source V} {policy : Policy} {root top key : DyadicInterval} {desired : Int}
  {levels : Nat} {s s' : Store V} {node : Node V}

/-! ### One key -/

/-- What is found at a cached key: it cannot be halved, or it is passed, split or entered. -/
inductive Look (policy : Policy) (desired : Int) (key : DyadicInterval) (s : Store V) : Prop
  | unfit {fault : Fault} (hleft : key.left? = .error fault)
  | passed {node : Node V} (hleft : key.left? = .ok key.left) (hnode : s.tree.find? key = some node)
      (hacc : desired ≤ node.accuracy)
      (hpass : policy.skipAccurate = true ∨ s.tree.contains key.left = false)
  | split {node : Node V} (hleft : key.left? = .ok key.left) (hnode : s.tree.find? key = some node)
      (hlt : node.accuracy < desired) (hl : s.tree.contains key.left = false)
  | entered {node : Node V} (hleft : key.left? = .ok key.left)
      (hnode : s.tree.find? key = some node)
      (hwalk : node.accuracy < desired ∨ policy.skipAccurate = false)
      (hl : s.tree.contains key.left = true)

theorem look (policy : Policy) (desired : Int) (hkey : s.tree.contains key = true) :
    Look policy desired key s := by
  obtain ⟨node, hnode⟩ := exists_find?_of_contains hkey
  rcases halves?_cases key with ⟨fault, hleft, -⟩ | ⟨hleft, -⟩
  · exact .unfit hleft
  · cases hl : s.tree.contains key.left with
    | false =>
      by_cases hacc : desired ≤ node.accuracy
      · exact .passed hleft hnode hacc (.inr hl)
      · exact .split hleft hnode (not_le.1 hacc) hl
    | true =>
      by_cases hacc : desired ≤ node.accuracy
      · cases hskip : policy.skipAccurate with
        | true => exact .passed hleft hnode hacc (.inl hskip)
        | false => exact .entered hleft hnode (.inr hskip) hl
      · exact .entered hleft hnode (.inl (not_le.1 hacc)) hl

theorem tour_unfit (policy : Policy) (source : Source V) (desired : Int) (levels : Nat)
    {fault : Fault} (hkey : s.tree.contains key = true) (hleft : key.left? = .error fault) :
    tour policy source desired (levels + 1) key s = .error (.fault fault) s := by
  obtain ⟨node, hnode⟩ := exists_find?_of_contains hkey
  rw [tour, bind_of_ok (tree_run s), accuracy?, hnode, isLeaf?_eq_error _ hleft]
  rfl

/-- The tour at a key that can be halved. -/
theorem tour_run (policy : Policy) (source : Source V) (desired : Int) (levels : Nat)
    (hleft : key.left? = .ok key.left) (hnode : s.tree.find? key = some node) :
    tour policy source desired (levels + 1) key s =
      (if desired ≤ node.accuracy ∧ (policy.skipAccurate || !s.tree.contains key.left) then pure ()
      else if s.tree.contains key.left = false then
        splitLeaf source key >>= fun _ => tourHalves policy source desired levels key
      else tourHalves policy source desired levels key) s := by
  rw [tour, bind_of_ok (tree_run s), accuracy?, hnode, isLeaf?_eq _ hleft]
  cases s.tree.contains key.left with
  | false => rfl
  | true => rfl

theorem tour_passed (source : Source V) (levels : Nat) (hleft : key.left? = .ok key.left)
    (hnode : s.tree.find? key = some node) (hacc : desired ≤ node.accuracy)
    (hpass : policy.skipAccurate = true ∨ s.tree.contains key.left = false) :
    tour policy source desired (levels + 1) key s = .ok () s := by
  have hif : desired ≤ node.accuracy ∧ (policy.skipAccurate || !s.tree.contains key.left) = true :=
    ⟨hacc, by simpa using hpass⟩
  rw [tour_run policy source desired levels hleft hnode, if_pos hif]
  rfl

theorem tour_split (policy : Policy) (source : Source V) (levels : Nat)
    (hleft : key.left? = .ok key.left) (hnode : s.tree.find? key = some node)
    (hlt : node.accuracy < desired) (hl : s.tree.contains key.left = false) :
    tour policy source desired (levels + 1) key s =
      (splitLeaf source key >>= fun _ => tourHalves policy source desired levels key) s := by
  rw [tour_run policy source desired levels hleft hnode, if_neg fun hif => hlt.not_ge hif.1,
    if_pos hl]

theorem tour_entered (source : Source V) (levels : Nat) (hleft : key.left? = .ok key.left)
    (hnode : s.tree.find? key = some node)
    (hwalk : node.accuracy < desired ∨ policy.skipAccurate = false)
    (hl : s.tree.contains key.left = true) :
    tour policy source desired (levels + 1) key s =
      tourHalves policy source desired levels key s := by
  have hif : ¬ (desired ≤ node.accuracy ∧
      (policy.skipAccurate || !s.tree.contains key.left) = true) := by
    rintro ⟨hacc, hpass⟩
    rcases hwalk with hlt | hskip
    · exact hlt.not_ge hacc
    · simp [hskip, hl] at hpass
  rw [tour_run policy source desired levels hleft hnode, if_neg hif, if_neg (by simp [hl])]

/-- Where the tours of both halves change nothing, that of the key changes nothing. -/
theorem tour_unchanged (hleft : key.left? = .ok key.left) (hkey : s.tree.contains key = true)
    (hl : s.tree.contains key.left = true)
    (left : tour policy source desired levels key.left s = .ok () s)
    (right : tour policy source desired levels key.right s = .ok () s) :
    tour policy source desired (levels + 1) key s = .ok () s := by
  cases look policy desired hkey with
  | unfit hno => cases hno.symm.trans hleft
  | passed _ hnode hacc hpass => exact tour_passed source levels hleft hnode hacc hpass
  | split _ _ _ hno => cases hno.symm.trans hl
  | entered _ hnode hwalk _ =>
    rw [tour_entered source levels hleft hnode hwalk hl, tourHalves, bind_of_ok left, right]

/-! ### What lies beside a key -/

/-- The stores differ only in nodes of intervals under and around `key`. -/
def Beside (key : DyadicInterval) (s s' : Store V) : Prop :=
  ∀ J, key.contains J = false → J.contains key = false → s'.tree.find? J = s.tree.find? J

theorem Beside.refl (key : DyadicInterval) (s : Store V) : Beside key s s :=
  fun _ _ _ => rfl

theorem Beside.trans {s₁ s₂ s₃ : Store V} (h : Beside key s₁ s₂) (h' : Beside key s₂ s₃) :
    Beside key s₁ s₃ :=
  fun J hc hc' => (h' J hc hc').trans (h J hc hc')

theorem Beside.of_contains {K : DyadicInterval} (h : Beside K s s') (hc : key.contains K = true) :
    Beside key s s' := by
  intro J hJ hJ'
  apply h J
  · rw [Bool.eq_false_iff]
    intro hKJ
    rw [contains_trans hc hKJ] at hJ
    cases hJ
  · rw [Bool.eq_false_iff]
    intro hJK
    rcases contains_or_contains hc hJK with hkJ | hJk
    · rw [hkJ] at hJ
      cases hJ
    · rw [hJk] at hJ'
      cases hJ'

/-- What lies under the sibling lies beside the key. -/
theorem Beside.find?_eq {K J : DyadicInterval} (h : Beside K s s')
    (hc : K.sibling.contains J = true) : s'.tree.find? J = s.tree.find? J := by
  have hno := not_sibling_contains hc
  rw [sibling_sibling] at hno
  apply h J hno
  rw [Bool.eq_false_iff]
  intro hJ
  have hp := power_le_of_contains hc
  rw [sibling_power] at hp
  have heq := eq_of_contains_of_power_le hJ hp
  rw [heq, contains_self] at hno
  cases hno

/-- A propagation sets no node but those around the key it starts from. -/
theorem propagate_beside {below : DyadicInterval} (h : s.tree.FullUnder root)
    (hbelow : s.tree.contains below = true) {J : DyadicInterval} (hJ : J.contains below = false) :
    (final (propagate source below) s).tree.find? J = s.tree.find? J := by
  have hends : Ends (propagate source below) s _ _ :=
    propagate_ends (P := fun key s' => key.contains below = true ∧
      s'.tree.find? J = s.tree.find? J)
      (by
        rintro s' key b sib par value - ⟨hc, hsame⟩ hf - -
        have hpc := contains_trans (parent_contains key) hc
        refine ⟨hpc, ?_⟩
        rw [Store.improved, find?_put_of_ne _ _ _, hsame]
        rintro rfl
        simp [hpc] at hJ)
      h ⟨contains_self below, rfl⟩ hbelow
  apply Ends.final (P := fun s' => s'.tree.find? J = s.tree.find? J)
  apply hends.mono
  · rintro _ s' ⟨-, last, -, ⟨-, hsame⟩, -⟩
    exact hsame
  · rintro _ s' ⟨-, last, ⟨-, hsame⟩, -⟩
    exact hsame

theorem splitLeaf_beside {leaf : DyadicInterval} (source : Source V) (h : s.tree.FullUnder root)
    (hnode : s.tree.find? leaf = some node) (hl : s.tree.contains leaf.left = false) :
    Ends (splitLeaf source leaf) s (fun _ s' => Beside leaf s s')
      (fun _ s' => Beside leaf s s') := by
  have hleaf := contains_of_find? hnode
  rw [Ends, splitLeaf_run source h hnode hl]
  cases leaf.left? with
  | error fault => exact .refl leaf s
  | ok left =>
    cases source.split s.tree.size node.value leaf.left leaf.right with
    | error error => exact .refl leaf s
    | ok values =>
      obtain ⟨leftValue, rightValue⟩ := values
      have hfinal : Beside leaf s
          (final (propagate source leaf.left) (s.halved leaf leftValue rightValue)) := by
        intro J hc hc'
        have hleft : J ≠ leaf.left := by
          rintro rfl
          simp [contains_left] at hc
        have hright : J ≠ leaf.right := by
          rintro rfl
          simp [contains_right] at hc
        rw [propagate_beside (h.halved hleaf hl leftValue rightValue)
          (contains_halved.2 (.inl rfl)) (not_contains_left hc' hleft)]
        exact find?_halved_of_ne hleft hright
      unfold final at hfinal
      cases hp : propagate source leaf.left (s.halved leaf leftValue rightValue) with
      | ok a s' =>
        rw [hp] at hfinal
        simpa only [hp] using hfinal
      | error failure s' =>
        rw [hp] at hfinal
        simpa only [hp] using hfinal

/-! ### What a tour leaves -/

/-- A tour of a key down to the resolution can begin. -/
structure Ready (root key : DyadicInterval) (desired : Int) (levels : Nat) (s : Store V) :
    Prop where
  full : s.tree.FullUnder root
  modest : s.tree.Modest
  mem : s.tree.contains key = true
  desired_le : desired ≤ key.power + levels

/-- What a tour of `key` for a query for `top` comes to: moves that add the intervals under `key`
that were missing down to the resolution, and no others. -/
structure Toured (source : Source V) (root top key : DyadicInterval) (desired : Int)
    (s s' : Store V) : Prop where
  moves : Moves source top desired s s'
  full : s'.tree.FullUnder root
  keys : ∀ J, s'.tree.contains J = true ↔
    s.tree.contains J = true ∨ key.contains J = true ∧ J.power ≤ desired
  beside : Beside key s s'

/-- What a tour that is broken off leaves. -/
structure Interrupted (source : Source V) (top key : DyadicInterval) (desired : Int)
    (s s' : Store V) (failure : Failure) : Prop where
  moves : Moves source top desired s s'
  beside : Beside key s s'
  blamed : Blamed source top s' failure

theorem Ready.left (h : Ready root key desired (levels + 1) s)
    (hl : s.tree.contains key.left = true) : Ready root key.left desired levels s where
  full := h.full
  modest := h.modest
  mem := hl
  desired_le := by
    have := h.desired_le
    rw [left_power]
    omega

/-- After the left half the right one is gone through. -/
theorem Toured.ready_right (h : Toured source root top key.left desired s s')
    (hs : Ready root key desired (levels + 1) s) (hl : s.tree.contains key.left = true) :
    Ready root key.right desired levels s' where
  full := h.full
  modest := (h.moves.modest (.inr ⟨root, hs.full⟩) hs.modest).2
  mem := (h.keys _).2 (.inl (hs.full.contains_right_of_left hs.mem hl))
  desired_le := by
    have := hs.desired_le
    rw [right_power]
    omega

section Halves

variable {s₁ : Store V} (hkey : s.tree.contains key = true) (hm : Moves source top desired s s₁)
  (hbeside : Beside key s s₁) (hold : ∀ J, s.tree.contains J = true → s₁.tree.contains J = true)
  (hnew : ∀ J, s₁.tree.contains J = true →
    s.tree.contains J = true ∨ key.contains J = true ∧ J.power ≤ desired)

include hkey hm hbeside hold hnew

/-- A tour of the left half and then one of the right half make one of the whole. -/
theorem Toured.halves {s₂ s₃ : Store V}
    (hleft : Toured source root top key.left desired s₁ s₂)
    (hright : Toured source root top key.right desired s₂ s₃) :
    Toured source root top key desired s s₃ := by
  refine ⟨(hm.trans hleft.moves).trans hright.moves, hright.full, ?_,
    (hbeside.trans (hleft.beside.of_contains (contains_left key))).trans
      (hright.beside.of_contains (contains_right key))⟩
  intro J
  rw [hright.keys, hleft.keys]
  constructor
  · rintro ((hJ | ⟨hJ, hp⟩) | ⟨hJ, hp⟩)
    · exact hnew J hJ
    · exact .inr ⟨contains_trans (contains_left key) hJ, hp⟩
    · exact .inr ⟨contains_trans (contains_right key) hJ, hp⟩
  · rintro (hJ | ⟨hJ, hp⟩)
    · exact .inl (.inl (hold J hJ))
    · by_cases hne : J = key
      · exact .inl (.inl (hold J (hne ▸ hkey)))
      · rcases left_contains_or_right_contains hJ hne with hJl | hJr
        · exact .inl (.inr ⟨hJl, hp⟩)
        · exact .inr ⟨hJr, hp⟩

theorem tourHalves_ends
    (left : Ends (tour policy source desired levels key.left) s₁
      (fun _ s' => Toured source root top key.left desired s₁ s')
      (fun failure s' => Interrupted source top key.left desired s₁ s' failure))
    (right : ∀ s₂, Toured source root top key.left desired s₁ s₂ →
      Ends (tour policy source desired levels key.right) s₂
        (fun _ s' => Toured source root top key.right desired s₂ s')
        (fun failure s' => Interrupted source top key.right desired s₂ s' failure)) :
    Ends (tourHalves policy source desired levels key) s₁
      (fun _ s' => Toured source root top key desired s s')
      (fun failure s' => Interrupted source top key desired s s' failure) := by
  refine Ends.bind (left.mono (fun _ _ hleft => hleft) ?_) ?_
  · rintro failure s₂ ⟨hm₂, hb₂, hblamed⟩
    exact ⟨hm.trans hm₂, hbeside.trans (hb₂.of_contains (contains_left key)), hblamed⟩
  · intro _ s₂ hleft
    apply (right s₂ hleft).mono
    · intro _ s₃ hright
      exact .halves hkey hm hbeside hold hnew hleft hright
    · rintro failure s₃ ⟨hm₃, hb₃, hblamed⟩
      exact ⟨(hm.trans hleft.moves).trans hm₃,
        (hbeside.trans (hleft.beside.of_contains (contains_left key))).trans
          (hb₃.of_contains (contains_right key)), hblamed⟩

end Halves

/-- What a split of a leaf leaves: its halves are new, they are not too fine, and nothing beside the
leaf has changed. -/
structure Divided (source : Source V) (root top key : DyadicInterval) (desired : Int)
    (s s' : Store V) : Prop where
  moves : Moves source top desired s s'
  full : s'.tree.FullUnder root
  keys : ∀ J, s'.tree.contains J = true ↔
    J = key.left ∨ J = key.right ∨ s.tree.contains J = true
  beside : Beside key s s'
  power_lt : key.power < desired

theorem splitLeaf_divides (h : Ready root key desired levels s)
    (hnode : s.tree.find? key = some node) (hlt : node.accuracy < desired)
    (hl : s.tree.contains key.left = false) (hc : top.contains key = true) :
    Ends (splitLeaf source key) s (fun _ s' => Divided source root top key desired s s')
      (fun failure s' => Interrupted source top key desired s s' failure) := by
  have hp := (h.modest key node hnode).leaf hl
  apply ((splitLeaf_ends h.full hnode hl (.inr ⟨hc, hlt⟩)).and
    (splitLeaf_beside source h.full hnode hl)).mono
  · rintro _ s' ⟨⟨hmoves, hfull, hkeys⟩, hbeside⟩
    exact ⟨hmoves, hfull, hkeys, hbeside, by omega⟩
  · rintro failure s' ⟨⟨hmoves, hblamed⟩, hbeside⟩
    exact ⟨hmoves, hbeside, hblamed⟩

theorem Divided.ready (h : Divided source root top key desired s s')
    (hs : Ready root key desired levels s) : Ready root key desired levels s' where
  full := h.full
  modest := (h.moves.modest (.inr ⟨root, hs.full⟩) hs.modest).2
  mem := (h.keys _).2 (.inr (.inr hs.mem))
  desired_le := hs.desired_le

theorem Divided.contains_left (h : Divided source root top key desired s s') :
    s'.tree.contains key.left = true :=
  (h.keys _).2 (.inl rfl)

theorem Divided.new (h : Divided source root top key desired s s') {J : DyadicInterval}
    (hJ : s'.tree.contains J = true) :
    s.tree.contains J = true ∨ key.contains J = true ∧ J.power ≤ desired := by
  have hp := h.power_lt
  rcases (h.keys J).1 hJ with rfl | rfl | hold
  · exact .inr ⟨DyadicInterval.contains_left key, by rw [left_power]; omega⟩
  · exact .inr ⟨DyadicInterval.contains_right key, by rw [right_power]; omega⟩
  · exact .inl hold

/-- A tour makes moves and adds exactly the intervals that were missing down to its resolution. -/
theorem tour_ends (policy : Policy) (h : Ready root key desired levels s)
    (hc : top.contains key = true) :
    Ends (tour policy source desired levels key) s
      (fun _ s' => Toured source root top key desired s s')
      (fun failure s' => Interrupted source top key desired s s' failure) := by
  induction levels generalizing key s with
  | zero =>
    have hlevels := h.desired_le
    refine ⟨.refl, h.full, ?_, .refl key s⟩
    intro J
    refine ⟨.inl, ?_⟩
    rintro (hJ | ⟨hJ, hp⟩)
    · exact hJ
    · rw [eq_of_contains_of_power_le hJ (by omega)]
      exact h.mem
  | succ levels ih =>
    have halves : ∀ s₁, Moves source top desired s s₁ → Ready root key desired (levels + 1) s₁ →
        Beside key s s₁ → (∀ J, s.tree.contains J = true → s₁.tree.contains J = true) →
        (∀ J, s₁.tree.contains J = true →
          s.tree.contains J = true ∨ key.contains J = true ∧ J.power ≤ desired) →
        s₁.tree.contains key.left = true →
        Ends (tourHalves policy source desired levels key) s₁
          (fun _ s' => Toured source root top key desired s s')
          (fun failure s' => Interrupted source top key desired s s' failure) := by
      intro s₁ hm₁ h₁ hb₁ hold hnew hl₁
      apply tourHalves_ends h.mem hm₁ hb₁ hold hnew
      · exact ih (h₁.left hl₁) (contains_trans hc (contains_left key))
      · intro s₂ hleft
        exact ih (hleft.ready_right h₁ hl₁) (contains_trans hc (contains_right key))
    rcases look policy desired h.mem with ⟨hleft⟩ | ⟨hleft, hnode, hacc, hpass⟩ |
      ⟨hleft, hnode, hlt, hl⟩ | ⟨hleft, hnode, hwalk, hl⟩
    · rw [ends_of_error (tour_unfit policy source desired levels h.mem hleft)]
      exact ⟨.refl, .refl key s, .half h.mem hleft⟩
    · rw [ends_of_ok (tour_passed source levels hleft hnode hacc hpass)]
      refine ⟨.refl, h.full, ?_, .refl key s⟩
      intro J
      refine ⟨.inl, ?_⟩
      rintro (hJ | ⟨hJ, hp⟩)
      · exact hJ
      · exact h.modest.contains_of_le h.full hnode hacc hJ hp
    · rw [ends_congr (tour_split policy source levels hleft hnode hlt hl)]
      apply (splitLeaf_divides h hnode hlt hl hc).bind
      intro _ s₁ hs₁
      exact halves s₁ hs₁.moves (hs₁.ready h) hs₁.beside
        (fun J hJ => (hs₁.keys J).2 (.inr (.inr hJ))) (fun J hJ => hs₁.new hJ) hs₁.contains_left
    · rw [ends_congr (tour_entered source levels hleft hnode hwalk hl)]
      exact halves s .refl h (.refl key s) (fun _ => id) (fun _ => .inl) hl

end Work

end SignatureCache
