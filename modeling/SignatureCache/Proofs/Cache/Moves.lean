import Mathlib.Logic.Relation
import SignatureCache.Cache.Query
import SignatureCache.Proofs.Cache.Propagation
import SignatureCache.Proofs.DyadicInterval.Words

/-!
# Moves

Everything a query does to a store is a sequence of few kinds of moves: it is counted, it plants a
root, it grows the root, or it splits a leaf. A move that is refused leaves the tree as it is, so
each kind has one equation that says how it ends. `Move` records with each kind why the query makes
it, and that the tree's shape survives every move.
-/

namespace SignatureCache

namespace Store

variable {V : Type}

/-- The store with one more interval asked for. -/
def asked {τ : Type} [Shelf V τ] (s : Store V τ) : Store V τ where
  tree := s.tree
  activity := { s.activity with queries := s.activity.queries + 1 }

/-- The store with one more interval asked for and answered at once. -/
def answered (s : Store V) : Store V where
  tree := s.tree
  activity :=
    { s.activity with queries := s.activity.queries + 1, hits := s.activity.hits + 1 }

/-- The store with its tree planted. -/
def planted (s : Store V) (I : DyadicInterval) (value : V) : Store V where
  tree := s.tree.put I ⟨value, I.power, none, none⟩
  activity := { s.activity with freshComputations := s.activity.freshComputations + 1 }

/-- The store with its root grown. -/
def grown (s : Store V) (root : DyadicInterval) (node : Node V) (neighbourValue value : V) :
    Store V where
  tree := s.tree.grown root node neighbourValue value
  activity :=
    { s.activity with
      freshComputations := s.activity.freshComputations + 1
      rootExpansions := s.activity.rootExpansions + 1
      neighbourNodes := s.activity.neighbourNodes + 1 }

/-- The store with a leaf halved, before the gain is propagated. -/
def halved (s : Store V) (leaf : DyadicInterval) (leftValue rightValue : V) : Store V where
  tree := s.tree.halved leaf leftValue rightValue
  activity := { s.activity with splits := s.activity.splits + 1 }

end Store

namespace Work

open DyadicInterval SignatureCache.Tree

variable {V : Type} {source : Source V} {s s' : Store V} {root leaf I : DyadicInterval}
  {node : Node V}

/-! ### How the single moves end -/

theorem plant_run (source : Source V) (I : DyadicInterval) (h : s.tree = empty) :
    plant source I s =
      match source.fresh s.tree.size I with
      | .error error => .error (.error error) s
      | .ok value => .ok () (s.planted I value) := by
  have hfresh := fresh_run source I s
  rw [plant]
  cases hv : source.fresh s.tree.size I with
  | error error =>
    rw [hv] at hfresh
    rw [bind_of_error hfresh]
  | ok value =>
    rw [hv] at hfresh
    have hno : (computed s).tree.contains I = false := by
      rw [computed_tree, h, contains_empty]
    rw [bind_of_ok hfresh, edit_of_ok (insert_run hno _)]
    rfl

theorem growRoot_run (source : Source V) (h : s.tree.FullUnder root)
    (hnode : s.tree.find? root = some node) :
    growRoot source root s =
      match root.parent? with
      | .error fault => .error (.fault fault) s
      | .ok _ =>
        match source.fresh s.tree.size root.sibling with
        | .error error => .error (.error error) s
        | .ok neighbourValue =>
          match source.combine s.tree.size node.value neighbourValue root.half with
          | .error fault => .error (.fault fault) (computed s)
          | .ok value => .ok () (s.grown root node neighbourValue value) := by
  have hfresh := fresh_run source root.sibling s
  have hsearch := searched_run (computed s) root
  rw [growRoot]
  rcases parent?_cases root with hp | hp
  · rw [hp, bind_of_error (orFault_error .overflow s)]
  · rw [hp, bind_of_ok (orFault_ok root.parent s)]
    cases hv : source.fresh s.tree.size root.sibling with
    | error error =>
      rw [hv] at hfresh
      rw [bind_of_error hfresh]
    | ok neighbourValue =>
      rw [hv] at hfresh
      rw [bind_of_ok hfresh, bind_of_ok hsearch, computed_tree, hnode,
        bind_of_ok (orMissing_some _ node _)]
      simp only
      cases hc : source.combine s.tree.size node.value neighbourValue root.half with
      | error fault => rw [bind_of_error (orFault_error fault _)]
      | ok value =>
        have hedit := h.insertAround_run hnode neighbourValue value
        rw [bind_of_ok (orFault_ok value _)]
        exact bind_of_ok (edit_of_ok (s := computed s) hedit)

theorem splitLeaf_run (source : Source V) (h : s.tree.FullUnder root)
    (hnode : s.tree.find? leaf = some node) (hl : s.tree.contains leaf.left = false) :
    splitLeaf source leaf s =
      match leaf.left? with
      | .error fault => .error (.fault fault) s
      | .ok _ =>
        match source.split s.tree.size node.value leaf.left leaf.right with
        | .error error => .error (.error error) s
        | .ok (leftValue, rightValue) =>
          propagate source leaf.left (s.halved leaf leftValue rightValue) := by
  have hleaf := contains_of_find? hnode
  rw [splitLeaf, bind_congr_run (isLeaf_run s leaf)]
  rcases halves?_cases leaf with ⟨fault, hL, hR⟩ | ⟨hL, hR⟩
  · have hq : s.tree.isLeaf? leaf = .error fault := by
      rw [isLeaf?, hL]
      rfl
    rw [hq, hL, bind_of_error (orFault_error fault s)]
  · have hq : s.tree.isLeaf? leaf = .ok true := by
      rw [isLeaf?, hL]
      simp [hl, bind, Except.bind, pure, Except.pure]
    rw [hq, bind_of_ok (orFault_ok true s), hL, hR]
    simp only [Bool.not_true, Bool.false_eq_true, if_false]
    rw [bind_of_ok (searched_run s leaf), hnode, bind_of_ok (orMissing_some _ node s),
      bind_of_ok (orFault_ok _ s), bind_of_ok (orFault_ok _ s)]
    cases hv : source.split s.tree.size node.value leaf.left leaf.right with
    | error error => rw [bind_of_error (orError_error error s)]
    | ok values =>
      obtain ⟨leftValue, rightValue⟩ := values
      have hedit := insertHalves_run hleaf hl (h.not_contains_right hleaf hl) leftValue rightValue
      rw [bind_of_ok (orError_ok _ s)]
      simp only
      rw [bind_of_ok (edit_of_ok hedit), bind_of_ok (count_run _ _)]
      rfl

/-! ### The moves of one query -/

/-- The moves that a query for `I` at a resolution makes with the values of a source, each with the
reason for it. Only the combination can break off a move that has begun: a root then stays as it is,
and a propagation ends early. -/
inductive Move (source : Source V) (I : DyadicInterval) (resolution : Int) :
    Store V → Store V → Prop
  | ask (s : Store V) : Move source I resolution s s.asked
  | hit {s : Store V} {node : Node V} (hnode : s.tree.find? I = some node)
      (hr : resolution ≤ node.accuracy) : Move source I resolution s s.answered
  | plant {s : Store V} {value : V} (hempty : s.tree = empty)
      (hv : source.fresh s.tree.size I = .ok value) : Move source I resolution s (s.planted I value)
  | compute {s : Store V} (root : DyadicInterval) {neighbourValue : V}
      (hroot : s.tree.FullUnder root) (hside : SameSide root I) (hout : root.contains I = false)
      (hv : source.fresh s.tree.size root.sibling = .ok neighbourValue) :
      Move source I resolution s (computed s)
  | grow {s : Store V} {root : DyadicInterval} {node : Node V} {neighbourValue value : V}
      (hroot : s.tree.FullUnder root) (hside : SameSide root I) (hout : root.contains I = false)
      (hnode : s.tree.find? root = some node)
      (hv : source.fresh s.tree.size root.sibling = .ok neighbourValue)
      (hc : source.combine s.tree.size node.value neighbourValue root.half = .ok value) :
      Move source I resolution s (s.grown root node neighbourValue value)
  | split {s : Store V} {leaf : DyadicInterval} {node : Node V} {leftValue rightValue : V}
      (hnode : s.tree.find? leaf = some node) (hl : s.tree.contains leaf.left = false)
      (why : (leaf.contains I = true ∧ I ≠ leaf) ∨
        (I.contains leaf = true ∧ node.accuracy < resolution))
      (hv : source.split s.tree.size node.value leaf.left leaf.right =
        .ok (leftValue, rightValue)) :
      Move source I resolution s
        (final (propagate source leaf.left) (s.halved leaf leftValue rightValue))

variable {source : Source V} {I : DyadicInterval} {resolution : Int} {s s' : Store V}

/-- A sequence of moves of one query. -/
abbrev Moves (source : Source V) (I : DyadicInterval) (resolution : Int) :
    Store V → Store V → Prop :=
  Relation.ReflTransGen (Move source I resolution)

theorem fullUnder_planted (hempty : s.tree = empty) (value : V) :
    (s.planted I value).tree.FullUnder I := by
  have hroot : (s.planted I value).tree.find? I = some ⟨value, I.power, none, none⟩ :=
    find?_put_self _ _ _
  have honly : ∀ {key}, (s.planted I value).tree.contains key = true → key = I := by
    intro key hkey
    rw [Store.planted, contains_put, hempty, contains_empty, Bool.or_false,
      decide_eq_true_eq] at hkey
    exact hkey.symm
  constructor
  case contains_root => exact contains_of_find? hroot
  case root_contains =>
    intro key hkey
    rw [honly hkey]
    exact contains_self I
  case unlinked =>
    rw [parent?_of_find? hroot, sibling?_of_find? hroot]
    exact ⟨rfl, rfl⟩
  case contains_parent => exact fun hkey hne => absurd (honly hkey) hne
  case contains_sibling => exact fun hkey hne => absurd (honly hkey) hne
  case parent?_eq => exact fun hkey hne => absurd (honly hkey) hne
  case sibling?_eq => exact fun hkey hne => absurd (honly hkey) hne

/-- A split keeps the shape and the root, and leaves exactly the keys it has added beside the old
ones. -/
theorem fullUnder_split {root leaf : DyadicInterval} (source : Source V)
    (h : s.tree.FullUnder root) (hleaf : s.tree.contains leaf = true)
    (hl : s.tree.contains leaf.left = false) (leftValue rightValue : V) :
    (final (propagate source leaf.left)
        (s.halved leaf leftValue rightValue)).tree.FullUnder root ∧
      ∀ key, (final (propagate source leaf.left)
        (s.halved leaf leftValue rightValue)).tree.contains key =
          (s.tree.halved leaf leftValue rightValue).contains key := by
  apply propagate_induction (P := fun s' => ∀ key, s'.tree.contains key =
    (s.tree.halved leaf leftValue rightValue).contains key)
  · intro s' below b sib par value _ hkeys hf _ _ key
    rw [Store.improved, contains_put_of_contains (contains_of_find? hf.parent), hkeys]
  · exact h.halved hleaf hl leftValue rightValue
  · exact fun _ => rfl
  · exact contains_halved.2 (.inl rfl)

theorem Move.full (hm : Move source I resolution s s') (h : s.tree.Full) : s'.tree.Full := by
  cases hm with
  | ask => exact h
  | hit => exact h
  | plant hempty => exact .inr ⟨_, fullUnder_planted hempty _⟩
  | compute root => exact h
  | grow hroot => exact .inr ⟨_, hroot.grown⟩
  | split hnode hl =>
    rcases h with hempty | ⟨root, hroot⟩
    · simp [hempty] at hnode
    · exact .inr ⟨root, (fullUnder_split source hroot (contains_of_find? hnode) hl _ _).1⟩

theorem Moves.full (hm : Moves source I resolution s s') (h : s.tree.Full) : s'.tree.Full := by
  induction hm with
  | refl => exact h
  | tail _ hm ih => exact hm.full ih

/-! ### What can break off a query -/

/-- Why a query may fail once its request is accepted: its source refuses or cannot combine, or a
key on the way does not fit its word. -/
inductive Blamed (source : Source V) (I : DyadicInterval) (s : Store V) : Failure → Prop
  | fresh {nodes : Nat} {J : DyadicInterval} {error : Error}
      (h : source.fresh nodes J = .error error) : Blamed source I s (.error error)
  | split {nodes : Nat} {value : V} {left right : DyadicInterval} {error : Error}
      (h : source.split nodes value left right = .error error) : Blamed source I s (.error error)
  | combine {nodes : Nat} {a b : V} {half : Half} {fault : Fault}
      (h : source.combine nodes a b half = .error fault) : Blamed source I s (.fault fault)
  | parent {root : DyadicInterval} {fault : Fault} (hroot : s.tree.FullUnder root)
      (hside : SameSide root I) (hout : root.contains I = false)
      (h : root.parent? = .error fault) : Blamed source I s (.fault fault)
  | half {key : DyadicInterval} {fault : Fault} (hkey : s.tree.contains key = true)
      (h : key.left? = .error fault) : Blamed source I s (.fault fault)

theorem plant_ends (resolution : Int) (h : s.tree = empty) :
    Ends (plant source I) s
      (fun _ s' => Moves source I resolution s s' ∧ ∃ value, s' = s.planted I value)
      (fun failure s' => Moves source I resolution s s' ∧ Blamed source I s' failure) := by
  have hrun := plant_run source I h
  cases hv : source.fresh s.tree.size I with
  | error error =>
    rw [hv] at hrun
    rw [ends_of_error hrun]
    exact ⟨.refl, .fresh hv⟩
  | ok value =>
    rw [hv] at hrun
    rw [ends_of_ok hrun]
    exact ⟨.single (.plant h hv), value, rfl⟩

theorem growRoot_ends (resolution : Int) {root : DyadicInterval} (h : s.tree.FullUnder root)
    (hside : SameSide root I) (hout : root.contains I = false) :
    Ends (growRoot source root) s
      (fun _ s' => Moves source I resolution s s' ∧ s'.tree.FullUnder root.parent)
      (fun failure s' => Moves source I resolution s s' ∧ Blamed source I s' failure) := by
  obtain ⟨node, hnode⟩ := exists_find?_of_contains h.contains_root
  have hrun := growRoot_run source h hnode
  rcases hp : root.parent? with fault | parent
  · simp only [hp] at hrun
    rw [ends_of_error hrun]
    exact ⟨.refl, .parent h hside hout hp⟩
  · cases hv : source.fresh s.tree.size root.sibling with
    | error error =>
      simp only [hp, hv] at hrun
      rw [ends_of_error hrun]
      exact ⟨.refl, .fresh hv⟩
    | ok neighbourValue =>
      cases hc : source.combine s.tree.size node.value neighbourValue root.half with
      | error fault =>
        simp only [hp, hv, hc] at hrun
        rw [ends_of_error hrun]
        exact ⟨.single (.compute root h hside hout hv), .combine hc⟩
      | ok value =>
        simp only [hp, hv, hc] at hrun
        rw [ends_of_ok hrun]
        exact ⟨.single (.grow h hside hout hnode hv hc), h.grown⟩

theorem splitLeaf_ends {root leaf : DyadicInterval} {node : Node V} (h : s.tree.FullUnder root)
    (hnode : s.tree.find? leaf = some node) (hl : s.tree.contains leaf.left = false)
    (why : (leaf.contains I = true ∧ I ≠ leaf) ∨
      (I.contains leaf = true ∧ node.accuracy < resolution)) :
    Ends (splitLeaf source leaf) s
      (fun _ s' => Moves source I resolution s s' ∧ s'.tree.FullUnder root ∧
        ∀ key, s'.tree.contains key = true ↔
          key = leaf.left ∨ key = leaf.right ∨ s.tree.contains key = true)
      (fun failure s' => Moves source I resolution s s' ∧ Blamed source I s' failure) := by
  have hleaf := contains_of_find? hnode
  have hrun := splitLeaf_run source h hnode hl
  rcases hL : leaf.left? with fault | left
  · simp only [hL] at hrun
    rw [ends_of_error hrun]
    exact ⟨.refl, .half hleaf hL⟩
  · cases hv : source.split s.tree.size node.value leaf.left leaf.right with
    | error error =>
      simp only [hL, hv] at hrun
      rw [ends_of_error hrun]
      exact ⟨.refl, .split hv⟩
    | ok values =>
      obtain ⟨leftValue, rightValue⟩ := values
      simp only [hL, hv] at hrun
      have hm : Move source I resolution s _ := .split hnode hl why hv
      have hhalved := h.halved hleaf hl leftValue rightValue
      have hnew : (s.halved leaf leftValue rightValue).tree.contains leaf.left = true :=
        contains_halved.2 (.inl rfl)
      obtain ⟨hfull, hkeys⟩ := fullUnder_split source h hleaf hl leftValue rightValue
      cases hp : propagate source leaf.left (s.halved leaf leftValue rightValue) with
      | ok _ s₂ =>
        rw [final_of_ok hp] at hm hfull hkeys
        rw [ends_of_ok (hrun.trans hp)]
        refine ⟨.single hm, hfull, ?_⟩
        intro key
        rw [hkeys, contains_halved]
      | error failure s₂ =>
        obtain ⟨nodes, a, b, half, fault, hc, rfl⟩ := propagate_fault hhalved hnew hp
        rw [final_of_error hp] at hm
        rw [ends_of_error (hrun.trans hp)]
        exact ⟨.single hm, .combine hc⟩

end Work

end SignatureCache
