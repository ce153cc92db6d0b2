import Mathlib.Data.Finset.Card
import SignatureCache.Proofs.Tree.Cursor
import SignatureCache.Proofs.Tree.Full

/-!
# Walking under an interval

A cursor under `top` stands at the first key nested in `top` that starts at some point or later:
`firstFrom` is that key. A step from a key with halves leads to its left half; a step from a leaf,
or a skip, leads to the first key from the key's right end on. `countUnder` counts the keys that a
walk can meet under an interval.
-/

namespace SignatureCache

namespace Tree

open DyadicInterval

variable {V : Type} {t t' : Tree V} {root top key J : DyadicInterval} {x : ℚ}

/-- The first key nested in `top` that starts at `x` or later. -/
def firstFrom (t : Tree V) (top : DyadicInterval) (x : ℚ) : Option DyadicInterval :=
  t.keys.find? fun key => top.contains key && decide (x ≤ key.lower)

theorem firstFrom_eq_some_iff :
    t.firstFrom top x = some J ↔
      t.contains J = true ∧ (top.contains J = true ∧ x ≤ J.lower) ∧
        ∀ K, t.contains K = true → top.contains K = true → x ≤ K.lower → ¬ Before K J := by
  simp only [firstFrom, find?_keys_eq_some_iff, Bool.and_eq_true, decide_eq_true_eq, and_imp]

theorem firstFrom_eq_none_iff :
    t.firstFrom top x = none ↔
      ∀ K, t.contains K = true → top.contains K = true → ¬ x ≤ K.lower := by
  simp only [firstFrom, List.find?_eq_none, mem_keys_iff, Bool.and_eq_true, decide_eq_true_eq,
    not_and]

/-- From its own end on nothing is nested in an interval. -/
theorem firstFrom_upper (t : Tree V) (top : DyadicInterval) :
    t.firstFrom top top.upper = none := by
  rw [firstFrom_eq_none_iff]
  intro K _ hc hle
  have hu := (contains_iff_range.1 hc).2
  have hK := K.lower_lt_upper
  linarith

theorem firstFrom_upper_left (hc : top.contains key = true) (hr : t.contains key.right = true) :
    t.firstFrom top key.left.upper = some key.right := by
  rw [upper_left, firstFrom_eq_some_iff]
  refine ⟨hr, ⟨contains_trans hc (contains_right key), le_rfl⟩, ?_⟩
  intro K _ _ hle hbefore
  rcases before_iff.1 hbefore with hlt | ⟨heq, hp⟩
  · linarith
  · -- An interval that starts with the right half and is coarser would contain the whole.
    have hK := K.lower_lt_upper
    have hR := key.right.lower_lt_upper
    have hL := key.left.lower_lt_upper
    rw [upper_left, lower_left] at hL
    rcases contains_or_disjoint hp.le with hcr | hcr | hcr
    · have hkey := contains_parent_of_ne hcr (ne_of_power_ne hp.ne')
      rw [parent_right] at hkey
      have hl := (contains_iff_range.1 hkey).1
      linarith
    · linarith
    · linarith

/-! ### Steps of a cursor -/

theorem isFirst_firstFrom (t : Tree V) (top : DyadicInterval) (x : ℚ) :
    t.IsFirst (fun J => top.contains J = true ∧ x ≤ J.lower) (t.firstFrom top x) := by
  cases h : t.firstFrom top x with
  | none => exact fun K hK hfrom => firstFrom_eq_none_iff.1 h K hK hfrom.1 hfrom.2
  | some J =>
    obtain ⟨hJ, hfrom, hleast⟩ := firstFrom_eq_some_iff.1 h
    exact ⟨hJ, hfrom, fun K hK hfromK => hleast K hK hfromK.1 hfromK.2⟩

theorem advance_inner (hc : top.contains key = true) (hl : t.contains key.left = true) :
    (⟨top, some key⟩ : Cursor).advance t = ⟨top, some key.left⟩ := by
  have hnext : t.nextAfter? key = some key.left := by
    rw [nextAfter?_eq_some_iff]
    refine ⟨hl, before_of_contains (contains_left key) ?_, ?_⟩
    · apply ne_of_power_ne
      rw [left_power]
      omega
    · intro other _ h h'
      rw [before_iff, lower_left, left_power] at h'
      rw [before_iff] at h
      rcases h with h | ⟨h, hp⟩ <;> rcases h' with h' | ⟨h', hp'⟩
      · linarith
      · linarith
      · linarith
      · omega
  simp [Cursor.advance, hnext, Cursor.within, contains_trans hc (contains_left key)]

/-- Nothing but a leaf itself is nested in it, so what comes after it starts past its end. -/
theorem FullUnder.advance_leaf (h : t.FullUnder root) (hkey : t.contains key = true)
    (hl : t.contains key.left = false) (hc : top.contains key = true) :
    (⟨top, some key⟩ : Cursor).advance t = ⟨top, t.firstFrom top key.upper⟩ := by
  obtain ⟨next?, hadvance, hfirst⟩ := t.isFirst_advance hc
  have hpast : t.IsFirst (fun K => top.contains K = true ∧ key.upper ≤ K.lower) next? := by
    refine hfirst.congr fun K hK => and_congr_right fun _ => ?_
    constructor
    · intro hbefore
      refine (contains_or_upper_le hbefore.asymm).resolve_left fun hin => ?_
      rw [h.eq_of_not_contains_left hkey hl hK hin] at hbefore
      exact Before.irrefl key hbefore
    · exact before_of_upper_le (contains_self key)
  rw [hadvance, hpast.unique (t.isFirst_firstFrom top key.upper)]

theorem skip?_eq_firstFrom (hc : top.contains key = true)
    (hfits : key.following? top.power = .ok (key.following top.power)) :
    (⟨top, some key⟩ : Cursor).skip? t = .ok ⟨top, t.firstFrom top key.upper⟩ := by
  obtain ⟨next?, hskip, hfirst⟩ := t.isFirst_skip? hc hfits
  rw [hskip, hfirst.unique (t.isFirst_firstFrom top key.upper)]

/-! ### How many keys there are -/

/-- The keys nested in an interval. -/
def keysUnder (t : Tree V) (key : DyadicInterval) : Finset DyadicInterval :=
  t.keys.toFinset.filter fun J => key.contains J = true

/-- The number of keys nested in an interval. -/
def countUnder (t : Tree V) (key : DyadicInterval) : Nat :=
  (t.keysUnder key).card

@[simp] theorem mem_keysUnder :
    J ∈ t.keysUnder key ↔ t.contains J = true ∧ key.contains J = true := by
  simp [keysUnder, mem_keys_iff]

theorem countUnder_le_size (t : Tree V) (key : DyadicInterval) : t.countUnder key ≤ t.size := by
  rw [← length_keys]
  exact (Finset.card_filter_le _ _).trans t.keys.toFinset_card_le

theorem countUnder_congr (h : ∀ J, key.contains J = true → t'.contains J = t.contains J) :
    t'.countUnder key = t.countUnder key := by
  have heq : t'.keysUnder key = t.keysUnder key := by
    ext J
    rw [mem_keysUnder, mem_keysUnder]
    exact and_congr_left fun hc => by rw [h J hc]
  rw [countUnder, countUnder, heq]

theorem countUnder_pos (hkey : t.contains key = true) : 0 < t.countUnder key :=
  Finset.card_pos.2 ⟨key, mem_keysUnder.2 ⟨hkey, contains_self key⟩⟩

theorem countUnder_le_one (h : ∀ J, t.contains J = true → key.contains J = true → J = key) :
    t.countUnder key ≤ 1 := by
  apply Finset.card_le_one_iff.2
  intro J K hJ hK
  rw [mem_keysUnder] at hJ hK
  rw [h J hJ.1 hJ.2, h K hK.1 hK.2]

/-- The keys under a key are the key itself and those under its halves. -/
theorem countUnder_eq (hkey : t.contains key = true) :
    t.countUnder key = t.countUnder key.left + t.countUnder key.right + 1 := by
  have hunion : t.keysUnder key =
      Insert.insert key (t.keysUnder key.left ∪ t.keysUnder key.right) := by
    ext J
    rw [Finset.mem_insert, Finset.mem_union, mem_keysUnder, mem_keysUnder, mem_keysUnder]
    constructor
    · rintro ⟨hJ, hc⟩
      by_cases hne : J = key
      · exact .inl hne
      · rcases left_contains_or_right_contains hc hne with hcl | hcr
        · exact .inr (.inl ⟨hJ, hcl⟩)
        · exact .inr (.inr ⟨hJ, hcr⟩)
    · rintro (rfl | ⟨hJ, hc⟩ | ⟨hJ, hc⟩)
      · exact ⟨hkey, contains_self J⟩
      · exact ⟨hJ, contains_trans (contains_left key) hc⟩
      · exact ⟨hJ, contains_trans (contains_right key) hc⟩
  have hdisjoint : Disjoint (t.keysUnder key.left) (t.keysUnder key.right) := by
    rw [Finset.disjoint_left]
    intro J hl hr
    have hno := not_sibling_contains (mem_keysUnder.1 hl).2
    rw [sibling_left, (mem_keysUnder.1 hr).2] at hno
    cases hno
  have hself : key ∉ t.keysUnder key.left ∪ t.keysUnder key.right := by
    rw [Finset.mem_union, mem_keysUnder, mem_keysUnder]
    rintro (⟨-, hc⟩ | ⟨-, hc⟩)
    · have := power_le_of_contains hc
      rw [left_power] at this
      omega
    · have := power_le_of_contains hc
      rw [right_power] at this
      omega
  rw [countUnder, hunion, Finset.card_insert_of_notMem hself,
    Finset.card_union_of_disjoint hdisjoint]
  rfl

/-- A half that has just been added is alone under itself. -/
theorem FullUnder.countUnder_half_le (h : t.FullUnder root) (hkey : t.contains key = true)
    (hl : t.contains key.left = false)
    (hkeys : ∀ J, t'.contains J = true ↔ J = key.left ∨ J = key.right ∨ t.contains J = true)
    {half : DyadicInterval} (hc : key.contains half = true) (hp : half.power = key.power + 1) :
    t'.countUnder half ≤ 1 := by
  apply countUnder_le_one
  intro J hJ hcJ
  rcases (hkeys J).1 hJ with rfl | rfl | hJ
  · exact eq_of_contains_of_power_le hcJ (by rw [left_power, hp])
  · exact eq_of_contains_of_power_le hcJ (by rw [right_power, hp])
  · have heq := h.eq_of_not_contains_left hkey hl hJ (contains_trans hc hcJ)
    have := power_le_of_contains hcJ
    rw [heq] at this
    omega

end Tree

end SignatureCache
