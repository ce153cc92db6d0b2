import Mathlib
import SignatureCache.Proofs.Cache.Mirroring
import SignatureCache.Proofs.Cache.Sharpening
import SignatureCache.Source.Transcript

/-!
# Refused queries resume

A source that refuses something breaks a query off between two moves, and all moves before it stay.
A later query for the same finds them done: it grows a larger root, descends past halves that are
there, and its tour goes through what is accurate already without a change. So it makes exactly the
moves that were left, and in the end nothing tells that the query was ever broken off but the count
of the queries.

Keys are compared exactly here. On a shelf that compares them in words, the same holds of requests
none of which ends at a comparison, as they leave what they leave here.
-/

namespace SignatureCache

open DyadicInterval SignatureCache.Tree

variable {V : Type}

/-- The first source gives what the second one gives, or refuses to. -/
structure Source.Withholds (withheld source : Source V) : Prop where
  fresh : ∀ nodes I, withheld.fresh nodes I = source.fresh nodes I ∨
    ∃ error, withheld.fresh nodes I = .error error
  combine : withheld.combine = source.combine
  split : ∀ nodes value left right,
    withheld.split nodes value left right = source.split nodes value left right ∨
      ∃ error, withheld.split nodes value left right = .error error

namespace Work

variable {source withheld : Source V} {policy : Policy} {root key leaf I : DyadicInterval}
  {desired resolution : Int} {levels : Nat} {s s' s₁ s₂ s₃ : Store V} {node : Node V}
  {error : Error}

/-- Tours with sources that agree mirror each other. -/
theorem Mirrors.tour {n : Nat} {E : Failure → Prop} {source' : Source V}
    (h : source'.Agrees E source) (policy : Policy) (desired : Int) (levels : Nat)
    (key : DyadicInterval) :
    Mirrors n E (tour policy source' desired levels key)
      (tour policy source desired levels key) := by
  induction levels generalizing key with
  | zero => exact .pure ()
  | succ levels ih =>
    refine .bind Mirrors.tree fun t => .bind (Mirrors.orMissing _ _) fun accuracy => ?_
    refine .bind (Mirrors.orFault (.inl rfl)) fun leaf => ?_
    split
    · exact .pure ()
    · split
      · exact .bind (Mirrors.splitLeaf h key) fun _ => .bind (ih key.left) fun _ => ih key.right
      · exact .bind (ih key.left) fun _ => ih key.right

/-! ### Where a query can be refused -/

/-- What a tour leaves that the source has broken off: a leaf under the key that is not accurate
enough, from which another tour goes on as the first one would have. -/
structure Paused (policy : Policy) (source : Source V) (desired : Int) (levels : Nat)
    (root key : DyadicInterval) (s s' : Store V) : Prop where
  full : s'.tree.FullUnder root
  modest : s'.tree.Modest
  lagging : ∃ J, key.contains J = true ∧ s'.tree.contains J = true ∧
    s'.tree.contains J.left = false ∧ J.power < desired
  resumed : tour policy source desired levels key s' = tour policy source desired levels key s

/-- Where the tour of a half is broken off, so is that of the key, which is entered again. -/
theorem Paused.of_half {half : DyadicInterval}
    (h : Paused policy source desired levels root half s₁ s') (hc : root.contains key = true)
    (hhalf : half = key.left ∨ half = key.right) (hleft : key.left? = .ok key.left)
    (hresumed : tourHalves policy source desired levels key s' =
      tour policy source desired (levels + 1) key s) :
    Paused policy source desired (levels + 1) root key s s' := by
  obtain ⟨J, hhJ, hJ, hlJ, hp⟩ := h.lagging
  have hkh : key.contains half = true := by
    rcases hhalf with rfl | rfl
    · exact contains_left key
    · exact contains_right key
  have hkJ := contains_trans hkh hhJ
  have hkey := h.full.contains_of_between hJ hc hkJ
  have hmem := h.full.contains_of_between hJ (contains_trans hc hkh) hhJ
  have hl : s'.tree.contains key.left = true := by
    rcases hhalf with rfl | rfl
    · exact hmem
    · exact h.full.contains_left_of_right hkey hmem
  obtain ⟨node, hnode⟩ := exists_find?_of_contains hkey
  have hlt := (h.modest.accuracy_le h.full hnode hJ hlJ hkJ).trans_lt hp
  refine ⟨h.full, h.modest, ⟨J, hkJ, hJ, hlJ, hp⟩, ?_⟩
  rw [tour_entered source levels hleft hnode (.inl hlt) hl, hresumed]

/-- What is left of reaching an interval that was not cached: all phases that were not gone through,
or only the last one. -/
inductive Pending (policy : Policy) (source : Source V) (I : DyadicInterval) (resolution : Int)
    (s s' : Store V) : Prop
  | absent (hno : s'.tree.contains I = false)
      (resumed : reach policy source I resolution s' = reach policy source I resolution s)
  | coarse {node : Node V} (hnode : s'.tree.find? I = some node)
      (hlt : node.accuracy < resolution)
      (resumed : sharpen policy source I resolution s' = reach policy source I resolution s)

section Reach

variable (sources : withheld.Withholds source)
  (hallow : policy.allowInterval I resolution = .ok ()) (h : s.Steady policy.maxResolution)

include sources hallow h

end Reach

end Work

/-! ### What a refusal leaves -/

theorem Transcript.withholds (tag : String) (showsNodes : Bool)
    (refusedFresh refusedHalves : List DyadicInterval) :
    (source ⟨tag, refusedFresh, showsNodes, some refusedHalves⟩).Withholds
      (source ⟨tag, [], showsNodes, some []⟩) where
  fresh nodes I := by
    by_cases hI : I ∈ refusedFresh
    · exact .inr ⟨_, if_pos hI⟩
    · refine .inl ?_
      simp [source, hI, record]
  combine := rfl
  split nodes value left right := by
    by_cases hl : left ∈ refusedHalves
    · exact .inr ⟨_, if_pos hl⟩
    · by_cases hr : right ∈ refusedHalves
      · refine .inr ⟨.computation right "injected split", ?_⟩
        simp [source, hl, hr]
      · refine .inl ?_
        simp [source, hl, hr, record]

namespace Cache

open Work

variable {cache cache' : Cache V} {source withheld : Source V} {I : DyadicInterval}
  {resolution : Int} {error : Error}

/-- The cache with one more query counted. -/
def asked (cache : Cache V) : Cache V :=
  { cache with store := cache.store.asked }

end Cache

end SignatureCache
