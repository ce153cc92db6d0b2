import SignatureCache.Proofs.Cache.Tour

/-!
# The walk follows the tour

From each key on, the walk does what the tour of the key does and goes on where the key ends. This
takes it no more steps than there are keys under the key already and places for new ones, so it
never runs out of the steps it is given, and sharpening an interval is a tour of it.
-/

namespace SignatureCache

namespace Work

open DyadicInterval SignatureCache.Tree

variable {V : Type} {source : Source V} {policy : Policy} {root top key : DyadicInterval}
  {desired : Int} {levels : Nat} {s s' : Store V} {node : Node V}

/-! ### One key of the walk -/

theorem sharpenFrom_step {c : Cursor} (keys : Nat)
    (hat : sharpenAt policy source desired ⟨top, some key⟩ key s = .ok c s') :
    sharpenFrom policy source desired (keys + 1) ⟨top, some key⟩ s =
      sharpenFrom policy source desired keys c s' :=
  bind_of_ok hat

theorem sharpenAt_unfit (policy : Policy) (source : Source V) (top : DyadicInterval)
    (desired : Int) {fault : Fault} (hkey : s.tree.contains key = true)
    (hleft : key.left? = .error fault) :
    sharpenAt policy source desired ⟨top, some key⟩ key s = .error (.fault fault) s := by
  obtain ⟨node, hnode⟩ := exists_find?_of_contains hkey
  rw [sharpenAt, bind_of_ok (searched_run s key), accuracy?, hnode, Option.map_some,
    bind_of_ok (orMissing_some _ _ s), bind_congr_run (isLeaf_run s key), isLeaf?_eq_error _ hleft]
  rfl

/-- The walk looks at the accuracy of a key and whether it is a leaf. -/
theorem sharpenAt_run (policy : Policy) (source : Source V) (top : DyadicInterval) (desired : Int)
    (hleft : key.left? = .ok key.left) (hnode : s.tree.find? key = some node) :
    sharpenAt policy source desired ⟨top, some key⟩ key s =
      (if desired ≤ node.accuracy then
        if policy.skipAccurate then orFault ((⟨top, some key⟩ : Cursor).skip? s.tree)
        else pure ((⟨top, some key⟩ : Cursor).advance s.tree)
      else if s.tree.contains key.left = false then
        splitLeaf source key >>= fun _ => pure ⟨top, some key.left⟩
      else pure ((⟨top, some key⟩ : Cursor).advance s.tree)) s := by
  rw [sharpenAt, bind_of_ok (searched_run s key), accuracy?, hnode, Option.map_some,
    bind_of_ok (orMissing_some _ _ s), bind_congr_run (isLeaf_run s key), isLeaf?_eq _ hleft,
    bind_of_ok (orFault_ok _ s), hleft]
  by_cases hacc : desired ≤ node.accuracy
  · rw [if_pos hacc, if_pos hacc]
    cases policy.skipAccurate with
    | true =>
      rw [if_pos rfl, if_pos rfl]
      exact skip_run _ s
    | false => exact advance_run _ s
  · rw [if_neg hacc, if_neg hacc]
    cases s.tree.contains key.left with
    | true => exact advance_run _ s
    | false => rfl

theorem sharpenAt_passed (source : Source V) (h : s.tree.FullUnder root)
    (hc : top.contains key = true)
    (hnext : key.following? top.power = .ok (key.following top.power))
    (hleft : key.left? = .ok key.left) (hnode : s.tree.find? key = some node)
    (hacc : desired ≤ node.accuracy)
    (hpass : policy.skipAccurate = true ∨ s.tree.contains key.left = false) :
    sharpenAt policy source desired ⟨top, some key⟩ key s =
      .ok ⟨top, s.tree.firstFrom top key.upper⟩ s := by
  rw [sharpenAt_run policy source top desired hleft hnode, if_pos hacc, skip?_eq_firstFrom hc hnext]
  cases hskip : policy.skipAccurate with
  | true => rfl
  | false =>
    rw [hskip] at hpass
    rw [h.advance_leaf (contains_of_find? hnode) (hpass.resolve_left Bool.false_ne_true) hc]
    rfl

theorem sharpenAt_split (policy : Policy) (source : Source V) (top : DyadicInterval)
    (hleft : key.left? = .ok key.left) (hnode : s.tree.find? key = some node)
    (hlt : node.accuracy < desired) (hl : s.tree.contains key.left = false) :
    sharpenAt policy source desired ⟨top, some key⟩ key s =
      (splitLeaf source key >>= fun _ => pure ⟨top, some key.left⟩) s := by
  rw [sharpenAt_run policy source top desired hleft hnode, if_neg (not_le.2 hlt), if_pos hl]

theorem sharpenAt_entered (source : Source V) (hc : top.contains key = true)
    (hleft : key.left? = .ok key.left) (hnode : s.tree.find? key = some node)
    (hwalk : node.accuracy < desired ∨ policy.skipAccurate = false)
    (hl : s.tree.contains key.left = true) :
    sharpenAt policy source desired ⟨top, some key⟩ key s = .ok ⟨top, some key.left⟩ s := by
  rw [sharpenAt_run policy source top desired hleft hnode, advance_inner hc hl, hl]
  rcases hwalk with hlt | hno
  · rw [if_neg (not_le.2 hlt)]
    rfl
  · rw [hno]
    split <;> rfl

/-! ### From a key to its end -/

/-- The walk from the first key on that starts at `x` or later. -/
def sharpenAfter (policy : Policy) (source : Source V) (desired : Int) (top : DyadicInterval)
    (x : ℚ) (keys : Nat) : Work V Unit := do
  sharpenFrom policy source desired keys ⟨top, (← tree).firstFrom top x⟩

theorem sharpenAfter_run (policy : Policy) (source : Source V) (desired : Int)
    (top : DyadicInterval) (x : ℚ) (keys : Nat) (s : Store V) :
    sharpenAfter policy source desired top x keys s =
      sharpenFrom policy source desired keys ⟨top, s.tree.firstFrom top x⟩ s :=
  bind_of_ok (tree_run s)

/-- The walk from a key on does what a tour of the key does, and goes on from the end of the key; it
spends no more steps than there are keys under it already and places for new ones. -/
def Follows (policy : Policy) (source : Source V) (top : DyadicInterval) (desired : Int)
    (levels : Nat) (key : DyadicInterval) (s : Store V) : Prop :=
  ∃ visits, visits + 2 ≤ s.tree.countUnder key + 2 ^ ((desired - key.power).toNat + 1) ∧ ∀ keys,
    sharpenFrom policy source desired (visits + keys) ⟨top, some key⟩ s =
      (tour policy source desired levels key >>= fun _ =>
        sharpenAfter policy source desired top key.upper keys) s

/-- The walk from the left half of a key on does what tours of both halves do. -/
def FollowsHalves (policy : Policy) (source : Source V) (top : DyadicInterval) (desired : Int)
    (levels : Nat) (key : DyadicInterval) (s : Store V) : Prop :=
  ∃ visits, visits + 4 ≤ s.tree.countUnder key.left + s.tree.countUnder key.right +
      2 ^ ((desired - key.left.power).toNat + 2) ∧ ∀ keys,
    sharpenFrom policy source desired (visits + keys) ⟨top, some key.left⟩ s =
      (tourHalves policy source desired levels key >>= fun _ =>
        sharpenAfter policy source desired top key.upper keys) s

theorem two_le_two_pow_succ (n : Nat) : 2 ≤ 2 ^ (n + 1) := by
  rw [Nat.pow_succ]
  have := Nat.two_pow_pos n
  omega

/-- The keys under an interval and the resolution lie less than `levels` levels below it. -/
structure Deep (t : Tree V) (desired : Int) (levels : Nat) (key : DyadicInterval) : Prop where
  keys : ∀ {J}, t.contains J = true → key.contains J = true → J.power < key.power + levels
  desired_lt : desired < key.power + levels

theorem exists_deep (t : Tree V) (desired : Int) (key : DyadicInterval) :
    ∃ levels, Deep t desired levels key := by
  obtain ⟨bound, hbound⟩ := t.exists_power_le
  refine ⟨(max bound desired - key.power).toNat + 1, ?_, ?_⟩
  · intro J hJ _
    have := hbound J hJ
    omega
  · omega

theorem Deep.mono {t : Tree V} {levels' : Nat} (h : Deep t desired levels key)
    (hle : levels ≤ levels') : Deep t desired levels' key := by
  have hdesired := h.desired_lt
  refine ⟨?_, by omega⟩
  intro J hJ hc
  have := h.keys hJ hc
  omega

/-- Keys that are added down to the resolution do not make a tree deeper. -/
theorem Deep.half {t t' : Tree V} {half : DyadicInterval} (h : Deep t desired (levels + 1) key)
    (hc : key.contains half = true) (hp : half.power = key.power + 1)
    (hnew : ∀ J, t'.contains J = true →
      t.contains J = true ∨ key.contains J = true ∧ J.power ≤ desired) :
    Deep t' desired levels half := by
  have hdesired := h.desired_lt
  push_cast at hdesired
  refine ⟨?_, by omega⟩
  intro J hJ hcJ
  rcases hnew J hJ with hold | ⟨-, hle⟩
  · have := h.keys hold (contains_trans hc hcJ)
    push_cast at this
    omega
  · omega

/-- The walk follows both halves of a key if it follows the left one and then the right one. -/
theorem followsHalves_of_follows (h : Ready root key desired (levels + 1) s)
    (hc : top.contains key = true) (hl : s.tree.contains key.left = true)
    (hleft : Follows policy source top desired levels key.left s)
    (hright : ∀ s', Toured source root top key.left desired s s' →
      Follows policy source top desired levels key.right s') :
    FollowsHalves policy source top desired levels key s := by
  have hpow : 2 ^ ((desired - key.left.power).toNat + 2) =
      2 ^ ((desired - key.left.power).toNat + 1) + 2 ^ ((desired - key.left.power).toNat + 1) := by
    rw [Nat.pow_succ]
    omega
  obtain ⟨m, hvisits, hwalk⟩ := hleft
  have hends : Ends (tour policy source desired levels key.left) s _ _ :=
    tour_ends policy (h.left hl) (contains_trans hc (contains_left key))
  cases hrun : tour policy source desired levels key.left s with
  | error failure s₁ =>
    have htwo := two_le_two_pow_succ (desired - key.left.power).toNat
    have hhalves : tourHalves policy source desired levels key s = .error failure s₁ :=
      bind_of_error hrun
    refine ⟨m, by omega, ?_⟩
    intro keys
    rw [hwalk, bind_of_error hrun, bind_of_error hhalves]
  | ok _ s₁ =>
    rw [ends_of_ok hrun] at hends
    have hr₁ := (hends.ready_right h hl).mem
    obtain ⟨n, hn, hnext⟩ := hright s₁ hends
    -- The left half leaves the keys under the right one alone.
    have hcount : s₁.tree.countUnder key.right = s.tree.countUnder key.right := by
      apply countUnder_congr
      intro J hJ
      rw [contains_eq_isSome, contains_eq_isSome, hends.beside.find?_eq]
      rwa [sibling_left]
    rw [hcount, right_power, ← left_power] at hn
    refine ⟨m + n, by omega, ?_⟩
    intro keys
    have hhalves : tourHalves policy source desired levels key s =
        tour policy source desired levels key.right s₁ := bind_of_ok hrun
    rw [Nat.add_assoc, hwalk, bind_of_ok hrun, sharpenAfter_run, firstFrom_upper_left hc hr₁, hnext,
      upper_right, bind_congr_run hhalves]

/-- A key that is no leaf costs one step before its halves. -/
theorem follows_entered (hc : top.contains key = true) (hleft : key.left? = .ok key.left)
    (hnode : s.tree.find? key = some node)
    (hwalk : node.accuracy < desired ∨ policy.skipAccurate = false)
    (hl : s.tree.contains key.left = true)
    (halves : FollowsHalves policy source top desired levels key s) :
    Follows policy source top desired (levels + 1) key s := by
  obtain ⟨visits, hle, hrun⟩ := halves
  have hcount := countUnder_eq (contains_of_find? hnode)
  have hbound : visits + 1 + 2 ≤
      s.tree.countUnder key + 2 ^ ((desired - key.power).toNat + 1) := by
    rw [left_power] at hle
    by_cases hp : desired ≤ key.power
    · have h₁ : (desired - (key.power + 1)).toNat = 0 := by omega
      have h₂ : (desired - key.power).toNat = 0 := by omega
      rw [h₁] at hle
      rw [h₂]
      omega
    · have h₁ : (desired - (key.power + 1)).toNat + 2 = (desired - key.power).toNat + 1 := by omega
      rw [h₁] at hle
      omega
  refine ⟨visits + 1, hbound, ?_⟩
  intro keys
  rw [show visits + 1 + keys = visits + keys + 1 by omega,
    sharpenFrom_step _ (sharpenAt_entered source hc hleft hnode hwalk hl), hrun,
    bind_congr_run (tour_entered source levels hleft hnode hwalk hl)]

/-- A leaf is split in one step, and its halves are the next keys. -/
theorem follows_split (policy : Policy) (h : Ready root key desired (levels + 1) s)
    (hc : top.contains key = true) (hleft : key.left? = .ok key.left)
    (hnode : s.tree.find? key = some node) (hlt : node.accuracy < desired)
    (hl : s.tree.contains key.left = false)
    (halves : ∀ s₁, Divided source root top key desired s s₁ →
      FollowsHalves policy source top desired levels key s₁) :
    Follows policy source top desired (levels + 1) key s := by
  have hkey := contains_of_find? hnode
  have hat := sharpenAt_split policy source top hleft hnode hlt hl
  have htour := tour_split policy source levels hleft hnode hlt hl
  have hends : Ends (splitLeaf source key) s _ _ := splitLeaf_divides h hnode hlt hl hc
  have hpos := countUnder_pos hkey
  cases hrun : splitLeaf source key s with
  | error failure s₁ =>
    have hpow := two_le_two_pow_succ (desired - key.power).toNat
    refine ⟨1, by omega, ?_⟩
    intro keys
    rw [bind_of_error hrun] at hat htour
    rw [bind_of_error htour, Nat.add_comm]
    exact bind_of_error hat
  | ok _ s₁ =>
    rw [bind_of_ok hrun] at hat htour
    rw [ends_of_ok hrun] at hends
    have hp := hends.power_lt
    obtain ⟨visits, hle, hwalk⟩ := halves s₁ hends
    have hbound : visits + 1 + 2 ≤
        s.tree.countUnder key + 2 ^ ((desired - key.power).toNat + 1) := by
      have := h.full.countUnder_half_le hkey hl hends.keys (contains_left key) rfl
      have := h.full.countUnder_half_le hkey hl hends.keys (contains_right key) rfl
      have h₁ : (desired - key.left.power).toNat + 2 = (desired - key.power).toNat + 1 := by
        rw [left_power]
        omega
      rw [h₁] at hle
      omega
    refine ⟨visits + 1, hbound, ?_⟩
    intro keys
    rw [show visits + 1 + keys = visits + keys + 1 by omega, sharpenFrom_step _ hat, hwalk,
      bind_congr_run htour]

/-- In a steady store the walk follows the tour. -/
theorem follows_tour (source : Source V) (hallow : policy.allowInterval top desired = .ok ())
    (h : s.Steady policy.maxResolution) (hroot : s.tree.FullUnder root)
    (hkey : s.tree.contains key = true) (hc : top.contains key = true)
    (hdeep : Deep s.tree desired levels key) : Follows policy source top desired levels key s := by
  induction levels generalizing key s with
  | zero =>
    have := hdeep.keys hkey (contains_self key)
    simp at this
  | succ levels ih =>
    have hcl := contains_trans hc (contains_left key)
    have hcr := contains_trans hc (contains_right key)
    have hready : Ready root key desired (levels + 1) s :=
      ⟨hroot, h.modest, hkey, hdeep.desired_lt.le⟩
    have halves : ∀ s₁, Moves source top desired s s₁ → Ready root key desired (levels + 1) s₁ →
        (∀ J, s₁.tree.contains J = true →
          s.tree.contains J = true ∨ key.contains J = true ∧ J.power ≤ desired) →
        s₁.tree.contains key.left = true →
        FollowsHalves policy source top desired levels key s₁ := by
      intro s₁ hm₁ h₁ hnew hl₁
      have hs₁ := hm₁.steady hallow h
      have hdeep₁ := hdeep.half (contains_left key) rfl hnew
      apply followsHalves_of_follows h₁ hc hl₁ (ih hs₁ h₁.full hl₁ hcl hdeep₁)
      intro s₂ hleft
      apply ih (hleft.moves.steady hallow hs₁) hleft.full (hleft.ready_right h₁ hl₁).mem hcr
      apply hdeep.half (contains_right key) rfl
      intro J hJ
      rcases (hleft.keys J).1 hJ with hold | ⟨hcJ, hp⟩
      · exact hnew J hold
      · exact .inr ⟨contains_trans (contains_left key) hcJ, hp⟩
    cases look policy desired hkey with
    | unfit hleft =>
      have hpos := countUnder_pos hkey
      have hpow := two_le_two_pow_succ (desired - key.power).toNat
      refine ⟨1, by omega, ?_⟩
      intro keys
      rw [bind_of_error (tour_unfit policy source desired levels hkey hleft), Nat.add_comm]
      exact bind_of_error (sharpenAt_unfit policy source top desired hkey hleft)
    | passed hleft hnode hacc hpass =>
      have hpos := countUnder_pos hkey
      have hpow := two_le_two_pow_succ (desired - key.power).toNat
      have hnext := (h.inRange hkey).following?_eq top.power
      refine ⟨1, by omega, ?_⟩
      intro keys
      rw [bind_of_ok (tour_passed source levels hleft hnode hacc hpass), sharpenAfter_run,
        Nat.add_comm]
      exact sharpenFrom_step keys
        (sharpenAt_passed source hroot hc hnext hleft hnode hacc hpass)
    | split hleft hnode hlt hl =>
      apply follows_split policy hready hc hleft hnode hlt hl
      intro s₁ hs₁
      exact halves s₁ hs₁.moves (hs₁.ready hready) (fun _ => hs₁.new) hs₁.contains_left
    | entered hleft hnode hwalk hl =>
      exact follows_entered hc hleft hnode hwalk hl (halves s .refl hready (fun _ => .inl) hl)

/-! ### The whole walk -/

/-- The last look at the interval that was to be sharpened. -/
def confirm (top : DyadicInterval) (desired : Int) : Work V Unit := do
  if ((← tree).accuracy? top).all (· < desired) then
    throw (.fault (.stoppedShort top desired))

/-- Sharpening an interval is a tour of it. -/
theorem sharpen_run (source : Source V) (hallow : policy.allowInterval top desired = .ok ())
    (h : s.Steady policy.maxResolution) (htop : s.tree.contains top = true)
    (hdeep : Deep s.tree desired levels top) :
    sharpen policy source top desired s =
      (tour policy source desired levels top >>= fun _ => confirm top desired) s := by
  obtain ⟨root, hroot⟩ := h.full.exists_fullUnder htop
  obtain ⟨visits, hle, hwalk⟩ :=
    follows_tour source hallow h hroot htop (contains_self top) hdeep
  have hsize := s.tree.countUnder_le_size top
  -- Two steps are left over, so the walk sees that it has left the top.
  obtain ⟨rest, hrest⟩ : ∃ rest,
      s.tree.size + 1 <<< ((desired - top.power).toNat + 1) = visits + (rest + 1) := by
    rw [Nat.one_shiftLeft]
    exact ⟨s.tree.size + 2 ^ ((desired - top.power).toNat + 1) - visits - 1, by omega⟩
  rw [sharpen, bind_of_ok (tree_run s), hrest, Cursor.start, bind_congr_run (hwalk (rest + 1))]
  cases hrun : tour policy source desired levels top s with
  | error failure s₁ => rw [bind_of_error (bind_of_error hrun), bind_of_error hrun]
  | ok _ s₁ =>
    have hleft : (tour policy source desired levels top >>= fun _ =>
        sharpenAfter policy source desired top top.upper (rest + 1)) s = .ok () s₁ := by
      rw [bind_of_ok hrun, sharpenAfter_run, firstFrom_upper]
      rfl
    rw [bind_of_ok hleft, bind_of_ok hrun]
    rfl

theorem confirm_run (hnode : s.tree.find? top = some node) (hacc : desired ≤ node.accuracy) :
    confirm top desired s = .ok () s := by
  have hall : ((s.tree.accuracy? top).all (· < desired)) = false := by
    simpa [accuracy?, hnode] using hacc
  rw [confirm, bind_of_ok (tree_run s), hall]
  rfl

/-- Once the intervals down to a level are there, an exact top is accurate to it. -/
theorem le_accuracy_of_keys {t : Tree V} (h : t.FullUnder root) (hx : t.Exact)
    (hnode : t.find? top = some node)
    (hkeys : ∀ J : DyadicInterval, top.contains J = true → J.power ≤ desired →
      t.contains J = true) : desired ≤ node.accuracy := by
  obtain ⟨-, J, -, hl, hc, hacc⟩ := hx.least h hnode
  rw [hacc]
  by_contra hlt
  rw [not_le] at hlt
  have hleft := hkeys J.left (contains_trans hc (contains_left J)) (by rw [left_power]; omega)
  rw [hl] at hleft
  cases hleft

end Work

end SignatureCache
