import Mathlib.Data.List.Chain
import SignatureCache.Path.Basic
import SignatureCache.Proofs.Number.Comparison

/-!
# Which data make a path

Data make a path if there are letters, the depth is one or two, there is a row for every parameter,
and the parameters are finite and never decrease. The path keeps the parameters and has one
increment for each of them. Data with a row for every parameter that make no path break at least one
of the other rules, and the first rule that they break is the one reported.
-/

namespace SignatureCache

open Scalar

theorem Depth.ofNat?_eq_some_iff {n : Nat} {depth : Depth} :
    Depth.ofNat? n = some depth ↔ n = depth.toNat := by
  unfold Depth.ofNat?
  split <;> cases depth <;> simp_all [Depth.toNat]

theorem Depth.exists_toNat_iff {n : Nat} : (∃ depth : Depth, n = depth.toNat) ↔ n = 1 ∨ n = 2 := by
  constructor
  · rintro ⟨depth, rfl⟩
    cases depth with
    | one => exact .inl rfl
    | two => exact .inr rfl
  · rintro (rfl | rfl)
    · exact ⟨.one, rfl⟩
    · exact ⟨.two, rfl⟩

namespace Path

variable {K : Type} [Scalar K]

/-! ### Parameters in order -/

/-- No number is less than one before it. -/
def InOrder (xs : List K) : Prop :=
  xs.Pairwise fun x y => less y x = false

theorem nonDecreasing_iff_isChain (xs : List K) :
    nonDecreasing xs = true ↔ xs.IsChain fun x y => less y x = false := by
  fun_induction nonDecreasing xs with
  | case1 x y rest ih =>
    rw [List.isChain_cons_cons, Bool.and_eq_true, ih, Bool.not_eq_true']
  | case2 xs hshort =>
    cases xs with
    | nil => simp
    | cons x xs =>
      cases xs with
      | nil => simp
      | cons y ys => exact absurd rfl (hshort x y ys)

/-- Numbers none of which is followed by a smaller one are in order. -/
theorem nonDecreasing_iff_inOrder [WeaklyOrdered K] {xs : List K} (h : ∀ x ∈ xs, IsNumber x) :
    nonDecreasing xs = true ↔ InOrder xs := by
  rw [nonDecreasing_iff_isChain, InOrder]
  refine ⟨fun hchain => ?_, List.Pairwise.isChain⟩
  induction xs with
  | nil => exact .nil
  | cons x xs ih =>
    rw [List.forall_mem_cons] at h
    have hrest := ih h.2 hchain.tail
    refine List.pairwise_cons.2 ⟨?_, hrest⟩
    intro z hz
    cases xs with
    | nil => cases hz
    | cons y xs =>
      have hxy : less y x = false := (List.isChain_cons_cons.1 hchain).1
      rcases List.mem_cons.1 hz with rfl | hz
      · exact hxy
      · have hyz : less z y = false := (List.pairwise_cons.1 hrest).1 z hz
        rw [← Bool.not_eq_true]
        intro hzx
        rcases WeaklyOrdered.less_or_less (h.2 y List.mem_cons_self) hzx with hlt | hlt
        · exact Bool.false_ne_true (hyz.symm.trans hlt)
        · exact Bool.false_ne_true (hxy.symm.trans hlt)

/-! ### Data that make a path -/

@[simp] theorem length_rows (width : Nat) (depth : Depth) (n : Nat) (values : List K)
    (h : values.length = n * width) : (rows width depth n values h).length = n := by
  induction n generalizing values with
  | zero => rfl
  | succ n ih => rw [rows, List.length_cons, ih]

/-- Rows that are put one after the other are cut apart again. -/
theorem map_val_rows {width : Nat} (depth : Depth) {xss : List (List K)}
    (hwidth : ∀ xs ∈ xss, xs.length = width) {n : Nat} (hn : xss.length = n)
    (h : xss.flatten.length = n * width) :
    (rows width depth n xss.flatten h).map Subtype.val =
      xss.map fun xs => LieElement.ofLetters xs depth := by
  induction xss generalizing n with
  | nil =>
    subst hn
    rfl
  | cons xs xss ih =>
    subst hn
    obtain ⟨hxs, hwidth⟩ := List.forall_mem_cons.1 hwidth
    have htake : (xs :: xss).flatten.take width = xs := by simp [← hxs]
    have hdrop : (xs :: xss).flatten.drop width = xss.flatten := by simp [← hxs]
    have hlength : xss.flatten.length = xss.length * width := by
      rw [← hdrop, List.length_drop, h, List.length_cons, Nat.succ_mul, Nat.add_sub_cancel]
    have hrest := ih hwidth rfl hlength
    simp only [List.length_cons, rows, List.map_cons, htake, hdrop, hrest]
    rfl

/-- The path with these parameters, and with the coordinates of its increments row by row. -/
def ofRows (width : Nat) (depth : Depth) (parameters values : List K)
    (h : values.length = parameters.length * width) : Path K where
  width := width
  depth := depth
  parameters := parameters.toArray
  increments := (rows width depth parameters.length values h).toArray
  exact := false

variable {width depth : Nat} {parameters values : List K}

theorem ofData?_eq_ok_iff {path : Path K} :
    ofData? width depth parameters values = .ok path ↔
      width ≠ 0 ∧ (∀ p ∈ parameters, isFinite p = true) ∧ nonDecreasing parameters = true ∧
        ∃ (cutOff : Depth) (h : values.length = parameters.length * width),
          depth = cutOff.toNat ∧ path = ofRows width cutOff parameters values h := by
  unfold ofData?
  constructor
  · intro hok
    split at hok
    · cases hok
    split at hok
    · cases hok
    split at hok
    · split at hok
      · cases hok
      split at hok
      · cases hok
      · next hwidth _ cutOff hdepth h _ hfinite hsorted =>
        cases hok
        refine ⟨hwidth, ?_, by simpa using hsorted, cutOff, h, ?_, rfl⟩
        · simpa using hfinite
        · exact Depth.ofNat?_eq_some_iff.1 hdepth
    · cases hok
  · rintro ⟨hwidth, hfinite, hsorted, cutOff, h, hdepth, rfl⟩
    have hfind : parameters.find? (fun p => !isFinite p) = none := by simpa using hfinite
    simp only [if_neg hwidth, Depth.ofNat?_eq_some_iff.2 hdepth, dif_pos h, hfind, hsorted,
      Bool.not_true, Bool.false_eq_true, if_false]
    rfl

/-- Why data make no path although they have a row for every parameter. -/
inductive DataFault (width depth : Nat) (parameters : List K) : PathError → Prop
  | zeroWidth (hwidth : width = 0) : DataFault width depth parameters .zeroWidth
  | depth (hwidth : width ≠ 0) (hdepth : ¬ (depth = 1 ∨ depth = 2)) :
    DataFault width depth parameters (.depth depth)
  | nonFinite (hwidth : width ≠ 0) (hdepth : depth = 1 ∨ depth = 2) (before after : List K) (p : K)
    (hsplit : parameters = before ++ p :: after) (hbefore : ∀ q ∈ before, isFinite q = true)
    (hp : isFinite p = false) : DataFault width depth parameters (.nonFinite (text p))
  | decreasing (hwidth : width ≠ 0) (hdepth : depth = 1 ∨ depth = 2)
    (hfinite : ∀ p ∈ parameters, isFinite p = true) (horder : ¬ InOrder parameters) :
    DataFault width depth parameters .decreasing

variable [WeaklyOrdered K]

theorem nonDecreasing_iff_of_finite (h : ∀ p ∈ parameters, isFinite p = true) :
    nonDecreasing parameters = true ↔ InOrder parameters :=
  nonDecreasing_iff_inOrder fun p hp => WeaklyOrdered.number_of_finite (h p hp)

theorem ofData?_eq_error_iff (h : values.length = parameters.length * width) {e : PathError} :
    ofData? width depth parameters values = .error e ↔ DataFault width depth parameters e := by
  unfold ofData?
  constructor
  · intro herror
    split at herror
    · next hwidth =>
      cases herror
      exact .zeroWidth hwidth
    split at herror
    · next hwidth _ hdepth =>
      cases herror
      refine .depth hwidth fun hok => ?_
      obtain ⟨cutOff, hcutOff⟩ := Depth.exists_toNat_iff.2 hok
      cases hdepth.symm.trans (Depth.ofNat?_eq_some_iff.2 hcutOff)
    next hwidth _ cutOff hdepth =>
      have hdepth := Depth.exists_toNat_iff.1 ⟨cutOff, Depth.ofNat?_eq_some_iff.1 hdepth⟩
      split at herror
      · next _ p hp =>
        cases herror
        obtain ⟨hfound, before, after, hsplit, hbefore⟩ := List.find?_eq_some_iff_append.1 hp
        exact .nonFinite hwidth hdepth before after p hsplit (by simpa using hbefore)
          (by simpa using hfound)
      · next _ hfinite =>
        have hfinite : ∀ p ∈ parameters, isFinite p = true := by simpa using hfinite
        split at herror
        · next hsorted =>
          cases herror
          refine .decreasing hwidth hdepth hfinite ?_
          rw [← nonDecreasing_iff_of_finite hfinite]
          simpa using hsorted
        · cases herror
  · rintro (hwidth | ⟨hwidth, hdepth⟩ | ⟨hwidth, hdepth, before, after, p, rfl, hbefore, hp⟩ |
      ⟨hwidth, hdepth, hfinite, horder⟩)
    · rw [if_pos hwidth]
    · have hnone : Depth.ofNat? depth = none := by
        cases hsome : Depth.ofNat? depth with
        | none => rfl
        | some cutOff =>
          exact absurd (Depth.exists_toNat_iff.1 ⟨cutOff, Depth.ofNat?_eq_some_iff.1 hsome⟩) hdepth
      simp only [if_neg hwidth, hnone]
    · obtain ⟨cutOff, hcutOff⟩ := Depth.exists_toNat_iff.2 hdepth
      have hfind : (before ++ p :: after).find? (fun p => !isFinite p) = some p :=
        List.find?_eq_some_iff_append.2
          ⟨by simpa using hp, before, after, rfl, by simpa using hbefore⟩
      simp only [if_neg hwidth, Depth.ofNat?_eq_some_iff.2 hcutOff, dif_pos h, hfind]
    · obtain ⟨cutOff, hcutOff⟩ := Depth.exists_toNat_iff.2 hdepth
      have hfind : parameters.find? (fun p => !isFinite p) = none := by simpa using hfinite
      rw [← nonDecreasing_iff_of_finite hfinite, Bool.not_eq_true] at horder
      simp only [if_neg hwidth, Depth.ofNat?_eq_some_iff.2 hcutOff, dif_pos h, hfind, horder,
        Bool.not_false, if_true]

end Path

end SignatureCache
