import Mathlib.Logic.Function.Iterate
import SignatureCache.Proofs.DyadicInterval.Following
import SignatureCache.Proofs.Tree.Under
import SignatureCache.Tree.Cursor

/-!
# Moves of a cursor

A cursor under an interval goes from key to key by one look at the tree: the next key after the
present one, or the first key past everything nested in it. `IsFirst` says which key that is. Keys
nested in the top are one run, so a key that is not nested there tells that no later one is, and the
cursor has left. This holds in any tree; no key needs to have its parent or its sibling.
-/

namespace SignatureCache

namespace Tree

open DyadicInterval

variable {V : Type} {t : Tree V} {top key : DyadicInterval} {p q : DyadicInterval → Prop}
  {next? other? : Option DyadicInterval}

/-- The first key of a tree with a property, or nothing if no key has it. -/
def IsFirst (t : Tree V) (p : DyadicInterval → Prop) : Option DyadicInterval → Prop
  | some next => t.contains next = true ∧ p next ∧
      ∀ other, t.contains other = true → p other → ¬ Before other next
  | none => ∀ other, t.contains other = true → ¬ p other

theorem IsFirst.unique (h : t.IsFirst p next?) (h' : t.IsFirst p other?) : next? = other? := by
  cases next? with
  | none =>
    cases other? with
    | none => rfl
    | some other => exact absurd h'.2.1 (h other h'.1)
  | some next =>
    cases other? with
    | none => exact absurd h.2.1 (h' next h.1)
    | some other =>
      rcases before_trichotomy next other with hlt | heq | hlt
      · exact absurd hlt (h'.2.2 next h.1 h.2.1)
      · rw [heq]
      · exact absurd hlt (h.2.2 other h'.1 h'.2.1)

theorem IsFirst.congr (h : t.IsFirst p next?)
    (hpq : ∀ key, t.contains key = true → (p key ↔ q key)) : t.IsFirst q next? := by
  cases next? with
  | none => exact fun other hother hq => h other hother ((hpq other hother).2 hq)
  | some next =>
    obtain ⟨hnext, hp, hleast⟩ := h
    exact ⟨hnext, (hpq next hnext).1 hp, fun other hother hq =>
      hleast other hother ((hpq other hother).2 hq)⟩

theorem isFirst_nextAfter? (t : Tree V) (key : DyadicInterval) :
    t.IsFirst (Before key) (t.nextAfter? key) := by
  cases h : t.nextAfter? key with
  | none => exact nextAfter?_eq_none_iff.1 h
  | some next => exact nextAfter?_eq_some_iff.1 h

theorem isFirst_nextFrom? (t : Tree V) (key : DyadicInterval) :
    t.IsFirst (fun other => ¬ Before other key) (t.nextFrom? key) := by
  cases h : t.nextFrom? key with
  | none => exact fun other hother => not_not.2 (nextFrom?_eq_none_iff.1 h other hother)
  | some next => exact nextFrom?_eq_some_iff.1 h

/-- A cursor only has to look at one key to tell whether it has left its top: if that key is not
nested in the top, neither is any later one. -/
theorem IsFirst.within (h : t.IsFirst p next?) (hfrom : ∀ key, p key → ¬ Before key top)
    (current? : Option DyadicInterval) :
    t.IsFirst (fun key => top.contains key = true ∧ p key)
      ((⟨top, current?⟩ : Cursor).within next?) := by
  cases next? with
  | none => exact fun other hother hp => h other hother hp.2
  | some next =>
    obtain ⟨hnext, hp, hleast⟩ := h
    rw [Cursor.within, Option.filter_some]
    split
    · next htop => exact ⟨hnext, ⟨htop, hp⟩, fun other hother hq => hleast other hother hq.2⟩
    · next htop =>
      rintro other hother ⟨hotop, hq⟩
      rcases before_trichotomy next other with hlt | rfl | hlt
      · exact htop (contains_of_before hotop (hfrom next hp) hlt)
      · exact htop hotop
      · exact hleast other hother hq hlt

theorem isFirst_advance (t : Tree V) (hc : top.contains key = true) :
    ∃ next?, (⟨top, some key⟩ : Cursor).advance t = ⟨top, next?⟩ ∧
      t.IsFirst (fun other => top.contains other = true ∧ Before key other) next? := by
  refine ⟨_, rfl, (t.isFirst_nextAfter? key).within ?_ (some key)⟩
  exact fun other hafter hbefore => not_before_of_contains hc (hafter.trans hbefore)

/-- A skip goes to the first key nested in the top that starts where the present key ends or later.
The bound that it looks from is no coarser than the top, and of those intervals none that starts
at the same point comes before it. -/
theorem isFirst_skip? (t : Tree V) (hc : top.contains key = true)
    (hfits : key.following? top.power = .ok (key.following top.power)) :
    ∃ next?, (⟨top, some key⟩ : Cursor).skip? t = .ok ⟨top, next?⟩ ∧
      t.IsFirst (fun other => top.contains other = true ∧ key.upper ≤ other.lower) next? := by
  refine ⟨(⟨top, some key⟩ : Cursor).within (t.nextFrom? (key.following top.power)), ?_, ?_⟩
  · simp only [Cursor.skip?, hfits]
    rfl
  · have hrange := (contains_iff_range.1 hc).1
    have hkey := key.lower_lt_upper
    have hbound : Before top (key.following top.power) := by
      rw [before_iff, lower_following]
      exact .inl (by linarith)
    refine ((t.isFirst_nextFrom? _).within ?_ _).congr ?_
    · exact fun other hfrom hbefore => hfrom (hbefore.trans hbound)
    · intro other _
      exact and_congr_right fun hin => not_before_following_iff (power_le_of_contains hin)

/-! ### A walk -/

theorem map_fst_under (t : Tree V) (top : DyadicInterval) :
    (t.under top).map Prod.fst = t.keys.filter fun key => top.contains key := by
  rw [under_eq_filter, ← map_fst_entries, List.filter_map]
  rfl

/-- In a list of the keys with a property, in order, the next place holds the first that comes
later. -/
theorem isFirst_getElem?_succ {keys : List DyadicInterval} {n : Nat}
    (hsorted : keys.Pairwise Before)
    (hmem : ∀ other, other ∈ keys ↔ t.contains other = true ∧ p other) (h : keys[n]? = some key) :
    t.IsFirst (fun other => p other ∧ Before key other) keys[n + 1]? := by
  obtain ⟨hn, rfl⟩ := List.getElem?_eq_some_iff.1 h
  rw [List.pairwise_iff_getElem] at hsorted
  have hlater : ∀ m (hm : m < keys.length), Before keys[n] keys[m] → n < m := by
    intro m hm hbefore
    rcases lt_trichotomy n m with hlt | rfl | hlt
    · exact hlt
    · exact absurd hbefore (Before.irrefl _)
    · exact absurd hbefore (hsorted m n hm hn hlt).asymm
  by_cases hnext : n + 1 < keys.length
  · rw [List.getElem?_eq_getElem hnext]
    obtain ⟨hkey, hp⟩ := (hmem _).1 (List.getElem_mem hnext)
    refine ⟨hkey, ⟨hp, hsorted n (n + 1) hn hnext (Nat.lt_succ_self n)⟩, ?_⟩
    rintro other hother ⟨hp, hbefore⟩ hearlier
    obtain ⟨m, hm, rfl⟩ := List.getElem_of_mem ((hmem other).2 ⟨hother, hp⟩)
    have hlt := hlater m hm hbefore
    rcases Nat.lt_or_eq_of_le (Nat.succ_le_of_lt hlt) with hgt | rfl
    · exact Before.irrefl _ ((hsorted _ m hnext hm hgt).trans hearlier)
    · exact Before.irrefl _ hearlier
  · rw [List.getElem?_eq_none (not_lt.1 hnext)]
    rintro other hother ⟨hp, hbefore⟩
    obtain ⟨m, hm, rfl⟩ := List.getElem_of_mem ((hmem other).2 ⟨hother, hp⟩)
    have hlt := hlater m hm hbefore
    omega

/-- From a key on, the cursor visits the keys nested in it one after the other, and then none. -/
theorem iterate_advance (h : t.contains top = true) (n : Nat) :
    (fun c : Cursor => c.advance t)^[n] (Cursor.start top) =
      ⟨top, ((t.under top).map Prod.fst)[n]?⟩ := by
  have hsorted : ((t.under top).map Prod.fst).Pairwise Before := by
    rw [map_fst_under]
    exact t.pairwise_keys.filter _
  have hmem : ∀ other, other ∈ (t.under top).map Prod.fst ↔
      t.contains other = true ∧ top.contains other = true := by
    intro other
    rw [map_fst_under, List.mem_filter, mem_keys_iff]
  generalize (t.under top).map Prod.fst = keys at hsorted hmem
  induction n with
  | zero =>
    obtain ⟨first, rest, rfl⟩ := List.exists_cons_of_ne_nil
      (List.ne_nil_of_mem ((hmem top).2 ⟨h, contains_self top⟩))
    rcases List.mem_cons.1 ((hmem top).2 ⟨h, contains_self top⟩) with rfl | htop
    · rfl
    · have hbefore := List.rel_of_pairwise_cons hsorted htop
      have hfirst := ((hmem first).1 List.mem_cons_self).2
      exact absurd hbefore (not_before_of_contains hfirst)
  | succ n ih =>
    rw [Function.iterate_succ_apply', ih]
    cases hn : keys[n]? with
    | none =>
      rw [List.getElem?_eq_none ((List.getElem?_eq_none_iff.1 hn).trans (Nat.le_succ n))]
      rfl
    | some key =>
      obtain ⟨hkey, hin⟩ := (hmem key).1 (List.mem_of_getElem? hn)
      obtain ⟨next?, hnext, hfirst⟩ := t.isFirst_advance hin
      rw [hnext, hfirst.unique (isFirst_getElem?_succ hsorted hmem hn)]

/-- Moves of a cursor are exact in any tree. A skip goes to the first key under the top that comes
after the present key and is not nested in it, and an advance to the first one that comes after it.
The interval that a skip looks from is the coarsest one that starts where the present key ends, down
to a floor; no interval down to that floor comes after all that is nested in the present key and
before it. From a key on, repeated advances visit what is nested in it, in order. -/
theorem cursor_moves_exact (t : Tree V) (top : DyadicInterval) :
    (∀ key : DyadicInterval, top.contains key = true → -0x8000000000000000 ≤ key.offset →
      key.offset < 0x7fffffffffffffff →
      ∃ next?, (⟨top, some key⟩ : Cursor).skip? t = .ok ⟨top, next?⟩ ∧
        t.IsFirst (fun other => top.contains other = true ∧ Before key other ∧
          key.contains other = false) next?) ∧
    (∀ key : DyadicInterval, top.contains key = true →
      ∃ next?, (⟨top, some key⟩ : Cursor).advance t = ⟨top, next?⟩ ∧
        t.IsFirst (fun other => top.contains other = true ∧ Before key other) next?) ∧
    (∀ (key : DyadicInterval) (floor : Int), floor ≤ key.power →
      Coarsens floor ⟨key.offset + 1, key.power⟩ (key.following floor) ∧
      floor ≤ (key.following floor).power ∧ (key.following floor).lower = key.upper ∧
      (∀ K : DyadicInterval, floor ≤ K.power → K.lower = key.upper →
        (key.following floor).power ≤ K.power) ∧
      ∀ K : DyadicInterval, floor ≤ K.power →
        ((∀ J : DyadicInterval, key.contains J = true → Before J K) ↔
          ¬ Before K (key.following floor))) ∧
    (t.contains top = true → ∀ n : Nat,
      ((fun c : Cursor => c.advance t)^[n] (Cursor.start top)).current? =
        ((t.under top).map Prod.fst)[n]?) := by
  refine ⟨?_, fun key hc => t.isFirst_advance hc, ?_, ?_⟩
  · intro key hc hge hlt
    have hfits : key.following? top.power = .ok (key.following top.power) := by
      rw [following?, if_pos]
      simp only [Word.fits64, Bool.and_eq_true, decide_eq_true_eq]
      omega
    obtain ⟨next?, hskip, hfirst⟩ := t.isFirst_skip? hc hfits
    refine ⟨next?, hskip, hfirst.congr fun other _ => ?_⟩
    exact and_congr_right fun _ => upper_le_iff_before_not_contains
  · intro key floor hp
    have hloop : Coarsens floor ⟨key.offset + 1, key.power⟩ (key.following floor) :=
      coarsens_coarsen hp
    refine ⟨hloop, hloop.power_ge hp, lower_following key floor, ?_, ?_⟩
    · intro K hK hl
      apply power_coarsen_le _ hK
      rw [hl, ← lower_following key floor, following, lower_coarsen]
    · intro K hK
      rw [not_before_following_iff hK, upper_le_iff_after]
  · intro h n
    rw [iterate_advance h n]

/-- A tree that is not full, with a key to the right of `[-1, 0)`. -/
def sparse : Tree Nat :=
  (((((empty.put ⟨-1, 0⟩ { value := 0, accuracy := 0 }).put ⟨-4, 2⟩
    { value := 1, accuracy := 0 }).put ⟨-7, 3⟩ { value := 2, accuracy := 0 }).put ⟨-1, 1⟩
    { value := 3, accuracy := 0 }).put ⟨0, 0⟩ { value := 4, accuracy := 0 })

/-- Under `[-1, 0)` a skip from `[-1, -3/4)` passes the key nested in it and the gap that no key
starts in; walking visits the keys under `[-1, 0)` and leaves out the one to its right. -/
theorem cursor_moves_exact_sparse :
    let top : DyadicInterval := ⟨-1, 0⟩
    let key : DyadicInterval := ⟨-4, 2⟩
    let next : DyadicInterval := ⟨-1, 1⟩
    top.contains key = true ∧ sparse.contains top = true ∧
      (⟨top, some key⟩ : Cursor).skip? sparse = .ok ⟨top, some next⟩ ∧
      Before key next ∧ key.contains next = false ∧
      (⟨top, some key⟩ : Cursor).advance sparse = ⟨top, some ⟨-7, 3⟩⟩ ∧
      Before key ⟨-7, 3⟩ ∧
      key.following top.power = ⟨-3, 2⟩ ∧ lower ⟨-3, 2⟩ = key.upper ∧
      ∀ n : Nat, ((fun c : Cursor => c.advance sparse)^[n] (Cursor.start top)).current? =
        [top, key, ⟨-7, 3⟩, next][n]? := by
  intro top key next
  have hc : top.contains key = true := by decide
  have htop : sparse.contains top = true := by decide
  have hfollowing : key.following top.power = ⟨-3, 2⟩ := by
    rw [following, coarsen, if_neg (by decide), if_neg (by decide), if_neg (by decide)]
    rfl
  have hskip : (⟨top, some key⟩ : Cursor).skip? sparse = .ok ⟨top, some next⟩ := by
    have hbound : key.following? top.power = .ok (key.following top.power) := rfl
    rw [hfollowing] at hbound
    simp only [Cursor.skip?, hbound]
    rfl
  have hadvance : (⟨top, some key⟩ : Cursor).advance sparse = ⟨top, some ⟨-7, 3⟩⟩ := by rfl
  have hunder : (sparse.under top).map Prod.fst = [top, key, ⟨-7, 3⟩, next] := by decide
  obtain ⟨hskips, hadvances, hfollows, hwalks⟩ := cursor_moves_exact sparse top
  obtain ⟨next?, hnext, hfirst⟩ := hskips key hc (by decide) (by decide)
  obtain ⟨next'?, hnext', hfirst'⟩ := hadvances key hc
  obtain ⟨-, -, hlower, -, -⟩ := hfollows key top.power (by decide)
  cases hskip.symm.trans hnext
  cases hadvance.symm.trans hnext'
  refine ⟨hc, htop, hskip, hfirst.2.1.2.1, hfirst.2.1.2.2, hadvance, hfirst'.2.1.2, hfollowing,
    hfollowing ▸ hlower, ?_⟩
  intro n
  rw [hwalks htop n, hunder]

end Tree

end SignatureCache
