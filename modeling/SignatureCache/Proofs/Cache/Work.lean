import Mathlib.Data.List.Forall2
import SignatureCache.Cache.Store
import SignatureCache.Proofs.Tree.Edits

/-!
# How work ends

Work started in a store ends in a value or a failure, and in a store either way. `Ends` states what
is known of both ends; it passes through a sequence of steps, so a program is followed one step at a
time. `final` is the store alone, for what holds however the work ends.
-/

namespace SignatureCache

namespace Work

variable {V τ α β : Type} [Shelf V τ]

/-- Started in `s`, the work ends in a value and a store that satisfy `Q`, or in a failure and a
store that satisfy `E`. -/
def Ends (x : Work V α) (s : Store V) (Q : α → Store V → Prop) (E : Failure → Store V → Prop) :
    Prop :=
  match x s with
  | .ok a s' => Q a s'
  | .error failure s' => E failure s'

/-- The store that the work leaves. -/
def final (x : WorkOn V τ α) (s : Store V τ) : Store V τ :=
  match x s with
  | .ok _ s' => s'
  | .error _ s' => s'

variable {x : Work V α} {f : α → Work V β} {s s' : Store V}
  {Q Q' : α → Store V → Prop} {R : β → Store V → Prop} {E E' : Failure → Store V → Prop}

theorem final_of_ok {a : α} (h : x s = .ok a s') : final x s = s' := by
  rw [final, h]

theorem final_of_error {failure : Failure} (h : x s = .error failure s') : final x s = s' := by
  rw [final, h]

theorem ends_of_ok {a : α} (h : x s = .ok a s') : Ends x s Q E ↔ Q a s' := by
  rw [Ends, h]

theorem ends_of_error {failure : Failure} (h : x s = .error failure s') :
    Ends x s Q E ↔ E failure s' := by
  rw [Ends, h]

theorem ends_congr {y : Work V α} (h : x s = y s') : Ends x s Q E ↔ Ends y s' Q E := by
  rw [Ends, h, Ends]

theorem Ends.final {P : Store V → Prop} (h : Ends x s (fun _ => P) (fun _ => P)) :
    P (final x s) := by
  unfold Ends at h
  unfold Work.final
  cases hx : x s <;> simpa [hx] using h

theorem ends_of_final {P : Store V → Prop} (h : P (final x s)) :
    Ends x s (fun _ => P) (fun _ => P) := by
  unfold Work.final at h
  unfold Ends
  cases hx : x s <;> simpa [hx] using h

theorem Ends.mono (h : Ends x s Q E) (hQ : ∀ a s', Q a s' → Q' a s')
    (hE : ∀ failure s', E failure s' → E' failure s') : Ends x s Q' E' := by
  unfold Ends at h ⊢
  cases hx : x s with
  | ok a s' =>
    rw [hx] at h
    exact hQ a s' h
  | error failure s' =>
    rw [hx] at h
    exact hE failure s' h

theorem Ends.and (h : Ends x s Q E) (h' : Ends x s Q' E') :
    Ends x s (fun a s' => Q a s' ∧ Q' a s') (fun failure s' => E failure s' ∧ E' failure s') := by
  unfold Ends at h h' ⊢
  cases hx : x s with
  | ok a s' =>
    rw [hx] at h h'
    exact ⟨h, h'⟩
  | error failure s' =>
    rw [hx] at h h'
    exact ⟨h, h'⟩

/-! ### One step after another -/

theorem bind_congr_run {y : Work V α} (h : x s = y s') : (x >>= f) s = (y >>= f) s' := by
  simp only [bind, EStateM.bind, h]

theorem exists_of_bind_ok {b : β} {s'' : Store V} (h : (x >>= f) s = .ok b s'') :
    ∃ a s', x s = .ok a s' ∧ f a s' = .ok b s'' := by
  cases hx : x s with
  | ok a s' => exact ⟨a, s', rfl, (bind_of_ok hx).symm.trans h⟩
  | error failure s' =>
    rw [bind_of_error hx] at h
    cases h

theorem Ends.bind (h : Ends x s Q E) (hf : ∀ a s', Q a s' → Ends (f a) s' R E) :
    Ends (x >>= f) s R E := by
  cases hx : x s with
  | ok a s' =>
    have hrun : (x >>= f) s = f a s' := bind_of_ok hx
    rw [ends_of_ok hx] at h
    unfold Ends
    rw [hrun]
    exact hf a s' h
  | error failure s' =>
    rw [ends_of_error hx] at h
    rwa [ends_of_error (bind_of_error hx)]

/-- What follows a step need only agree where the step can lead. -/
theorem bind_congr_ends {g : α → Work V β} (h : Ends x s Q E)
    (hfg : ∀ a s', Q a s' → f a s' = g a s') : (x >>= f) s = (x >>= g) s := by
  cases hx : x s with
  | ok a s' =>
    rw [ends_of_ok hx] at h
    rw [bind_of_ok hx, bind_of_ok hx, hfg a s' h]
  | error failure s' => rw [bind_of_error hx, bind_of_error hx]

/-- Steps that agree as long as `P` holds, and keep `P`, agree for all members of a list. -/
theorem mapM_congr_run {f g : α → Work V β} {P : Store V → Prop} {l : List α}
    (hfg : ∀ a ∈ l, ∀ s, P s → f a s = g a s)
    (hP : ∀ a ∈ l, ∀ s, P s → Ends (f a) s (fun _ => P) (fun _ => P)) (h : P s) :
    l.mapM f s = l.mapM g s := by
  induction l generalizing s with
  | nil => rfl
  | cons a l ih =>
    rw [List.mapM_cons, List.mapM_cons, ← bind_congr_run (hfg a List.mem_cons_self s h)]
    apply bind_congr_ends (hP a List.mem_cons_self s h)
    intro b s₁ h₁
    exact bind_congr_run (ih (fun a' ha' => hfg a' (List.mem_cons_of_mem a ha'))
      (fun a' ha' => hP a' (List.mem_cons_of_mem a ha')) h₁)

/-- A step for each member of a list, each of which keeps `P` and ends in a value that `R` relates
to its member, or in a failure with `F`. -/
theorem Ends.mapM {f : α → Work V β} {P : Store V → Prop} {R : α → β → Prop}
    {F : Failure → Prop} {l : List α}
    (hf : ∀ a ∈ l, ∀ s, P s →
      Ends (f a) s (fun b s' => P s' ∧ R a b) (fun failure s' => P s' ∧ F failure))
    (h : P s) :
    Ends (l.mapM f) s (fun bs s' => P s' ∧ List.Forall₂ R l bs)
      (fun failure s' => P s' ∧ F failure) := by
  induction l generalizing s with
  | nil => exact ⟨h, .nil⟩
  | cons a l ih =>
    rw [List.mapM_cons]
    apply (hf a List.mem_cons_self s h).bind
    rintro b s₁ ⟨h₁, hb⟩
    apply (ih (fun a' ha' => hf a' (List.mem_cons_of_mem a ha')) h₁).bind
    rintro bs s₂ ⟨h₂, hbs⟩
    exact ⟨h₂, .cons hb hbs⟩

/-! ### The single steps -/

@[simp] theorem tree_run (s : Store V) : (tree : Work V (Tree V)) s = .ok s.tree s := rfl

@[simp] theorem count_run (change : Activity → Activity) (s : Store V) :
    count change s = .ok () { s with activity := change s.activity } := rfl

@[simp] theorem searched_run (s : Store V) (key : DyadicInterval) :
    (searched key : Work V (Tree V)) s = .ok s.tree s := rfl

@[simp] theorem test_eq (I J : DyadicInterval) : (test I J : Work V Unit) = pure () := rfl

theorem edit_of_ok {change : Edit V α} {a : α} {t : Tree V} (h : change s.tree = .ok a t) :
    edit change s = .ok a { s with tree := t } := by
  rw [edit, h]

@[simp] theorem orFault_ok (a : α) (s : Store V) : (orFault (.ok a) : Work V α) s = .ok a s := rfl

@[simp] theorem orFault_error (fault : Fault) (s : Store V) :
    (orFault (.error fault) : Work V α) s = .error (.fault fault) s := rfl

@[simp] theorem orError_ok (a : α) (s : Store V) : (orError (.ok a) : Work V α) s = .ok a s := rfl

@[simp] theorem orError_error (error : Error) (s : Store V) :
    (orError (.error error) : Work V α) s = .error (.error error) s := rfl

@[simp] theorem orMissing_some (fault : Fault) (a : α) (s : Store V) :
    (orMissing fault (some a) : Work V α) s = .ok a s := rfl

theorem isLeaf_run (s : Store V) (key : DyadicInterval) :
    (isLeaf key : Work V Bool) s = (orFault (s.tree.isLeaf? key) : Work V Bool) s := by
  rw [isLeaf, Tree.isLeaf?]
  cases key.left? with
  | error fault => rfl
  | ok left => rfl

/-- The store with one more fresh value counted. -/
def computed (s : Store V) : Store V where
  tree := s.tree
  activity := { s.activity with freshComputations := s.activity.freshComputations + 1 }

@[simp] theorem computed_tree (s : Store V) : (computed s).tree = s.tree := rfl

/-- A fresh value is counted; a refusal leaves the store as it is. -/
theorem fresh_run (source : Source V) (I : DyadicInterval) (s : Store V) :
    fresh source I s =
      match source.fresh s.tree.size I with
      | .error error => .error (.error error) s
      | .ok value => .ok value (computed s) := by
  rw [fresh, bind_of_ok (tree_run s)]
  cases h : source.fresh s.tree.size I with
  | error error => rw [bind_of_error (orError_error error s)]
  | ok value =>
    rw [bind_of_ok (orError_ok value s), bind_of_ok (count_run _ s)]
    rfl

end Work

end SignatureCache
