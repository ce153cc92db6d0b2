import Mathlib
import SignatureCache.Proofs.Cache.Service
import SignatureCache.Proofs.Tree.Freshness

/-!
# Fresh values after all requests

If all sources combine by one multiplication, whatever else they do and refuse, every key stays
fresh: a root is combined with its neighbour as it is, and a propagation leaves each key it improves
with the product of its halves. No law of the multiplication is used, so a value over leaves of one
power is the product in exactly the shape of the tree.
-/

namespace SignatureCache

open DyadicInterval SignatureCache.Tree

variable {V : Type} {mul : V → V → V}

/-- The source combines two neighbours by `mul`, the left one first whichever is given first. -/
structure Source.Multiplies (source : Source V) (mul : V → V → V) : Prop where
  left : ∀ nodes a b, source.combine nodes a b .left = .ok (mul a b)
  right : ∀ nodes a b, source.combine nodes b a .right = .ok (mul a b)

theorem Source.Multiplies.combines {source : Source V} (h : source.Multiplies mul) :
    source.Combines := by
  intro nodes a b half
  cases half with
  | left => exact ⟨_, h.left nodes a b⟩
  | right => exact ⟨_, h.right nodes b a⟩

theorem Transcript.multiplies (T : Transcript) :
    T.source.Multiplies fun a b => "(" ++ a ++ " " ++ b ++ ")" where
  left _ _ _ := rfl
  right _ _ _ := rfl

namespace Work

variable {source : Source V} {policy : Policy} {I root below : DyadicInterval} {resolution : Int}
  {s s' : Store V}

/-- What is combined for the parent of an interval is the product of its halves, in their order. -/
theorem combine_eq_mul {nodes : Nat} {a b value : V} (h : source.Multiplies mul)
    (hc : source.combine nodes a b below.half = .ok value) :
    (below.half = .left → value = mul a b) ∧ (below.half = .right → value = mul b a) := by
  refine ⟨?_, ?_⟩
  · intro hh
    rw [hh, h.left] at hc
    cases hc
    rfl
  · intro hh
    rw [hh, h.right] at hc
    cases hc
    rfl

/-- A propagation from a leaf that was split leaves every key fresh. -/
theorem propagate_fresh (h : source.Multiplies mul) (hfull : s.tree.FullUnder root)
    (hm : s.tree.Modest) (hr : Refreshing mul s.tree below)
    (hbelow : s.tree.contains below = true) :
    Fresh mul (final (propagate source below) s).tree := by
  apply Ends.final (P := fun s' => Fresh mul s'.tree)
  refine (propagate_ends (P := fun below s => s.tree.Modest ∧ Refreshing mul s.tree below) ?_ hfull
    ⟨hm, hr⟩ hbelow).mono ?_ ?_
  · rintro s below b sib par value - ⟨hm, hr⟩ hf hlt hc
    obtain ⟨hleft, hright⟩ := combine_eq_mul h hc
    exact ⟨hm.put hf hlt value, hr.put hm hf hlt hleft hright⟩
  · rintro - s' ⟨hfull, last, hlast, ⟨-, hr⟩, hrun⟩
    by_cases hne : last = root
    · exact (hne ▸ hr).fresh_of_root (hne ▸ hfull)
    · obtain ⟨b, sib, par, hf, -, -⟩ := hfull.exists_family hlast hne
      apply hr.fresh_of_le hf
      by_contra hlt
      obtain ⟨value, hv⟩ := h.combines _ b.value sib.value last.half
      rw [improveParent_run source hfull hne hf, if_neg hlt, hv] at hrun
      cases hrun
  · rintro failure s' ⟨-, last, -, b, sib, fault, -, -, hc, -⟩
    obtain ⟨value, hv⟩ := h.combines _ b.value sib.value last.half
    cases hc.symm.trans hv

theorem Move.fresh (hm : Move source I resolution s s') (h : source.Multiplies mul)
    (hfull : s.tree.Full) (hmodest : s.tree.Modest) (hf : Fresh mul s.tree) :
    Fresh mul s'.tree := by
  cases hm with
  | ask => exact hf
  | hit => exact hf
  | plant hempty =>
    rw [Store.planted, hempty]
    exact fresh_plant mul I _
  | compute root => exact hf
  | grow hroot _ _ hnode _ hc =>
    obtain ⟨hleft, hright⟩ := combine_eq_mul h hc
    exact hf.grown hroot hnode hleft hright
  | @split leaf node leftValue rightValue hnode hl _ _ =>
    have hleaf := contains_of_find? hnode
    obtain ⟨root, hroot⟩ := hfull.exists_fullUnder hleaf
    exact propagate_fresh h (hroot.halved hleaf hl leftValue rightValue)
      (hmodest.halved hroot hleaf hl leftValue rightValue)
      (hf.halved hmodest hroot hleaf hl leftValue rightValue) (contains_halved.2 (.inl rfl))

/-- A store of one multiplication: steady, exact and fresh. -/
structure Multiplied (mul : V → V → V) (limit : Int) (s : Store V) : Prop
    extends s.Steady limit where
  exact : s.tree.Exact
  fresh : Fresh mul s.tree

theorem multiplied_empty (mul : V → V → V) (limit : Int) :
    Multiplied mul limit ({} : Store V) where
  toSteady := steady_empty limit
  exact := exact_empty
  fresh := fresh_empty mul

theorem Move.multiplied (hm : Move source I resolution s s') (h : source.Multiplies mul)
    (hallow : policy.allowInterval I resolution = .ok ())
    (hs : Multiplied mul policy.maxResolution s) : Multiplied mul policy.maxResolution s' where
  toSteady := hm.steady hallow hs.toSteady
  exact := hm.exact h.combines hs.full hs.exact
  fresh := hm.fresh h hs.full hs.modest hs.fresh

/-- A query that is answered leaves its interval at least as accurate as asked for. -/
theorem dyadicValue_accurate {value : V} (combines : source.Combines)
    (h : s.Steady policy.maxResolution) (hx : s.tree.Exact)
    (hrun : dyadicValue policy source I resolution s = .ok value s') :
    policy.allowInterval I resolution = .ok () ∧ Moves source I resolution s s' ∧
      ∃ root node, s'.tree.FullUnder root ∧ s'.tree.find? I = some node ∧ node.value = value ∧
        resolution ≤ node.accuracy ∧ I.power ≤ node.accuracy := by
  obtain ⟨hallow, hm, node, hnode, hvalue, hacc⟩ := dyadicValue_sharp h.full hrun
  obtain ⟨root, hroot⟩ := (hm.full h.full).exists_fullUnder (contains_of_find? hnode)
  have hpower := (hm.exact combines h.full hx).2.power_le hroot hnode
  exact ⟨hallow, hm, root, node, hroot, hnode, hvalue, hacc, hpower⟩

end Work

namespace Cache

open Work

variable {cache : Cache V} {requests : List (Request V)}

theorem after_multiplied (cache : Cache V)
    (multiplies : ∀ request ∈ requests, request.source.Multiplies mul)
    (h : Multiplied mul cache.policy.maxResolution cache.store) :
    Multiplied mul cache.policy.maxResolution (cache.after requests).store := by
  apply after_induction (fun _ hs => hs.full) _ h
  exact fun request hrequest I _ hallow s s' hs hm =>
    hm.multiplied (multiplies request hrequest) hallow hs

/-- After any requests to an empty cache whose sources combine by one multiplication, be they
answered or not, every key with halves holds the product of two values, each of which is that of its
half unless the half is more accurate than the key. A key over leaves of one power, which are then
all intervals of that power under it, holds the balanced product of their values; so a query is
answered with that product if nothing under its interval is finer than it has to be. -/
theorem fresh_after_requests (mul : V → V → V) (policy : Policy) (dissection : Dissection)
    (requests : List (Request V))
    (multiplies : ∀ request ∈ requests, request.source.Multiplies mul) :
    let cache := ({ policy, dissection } : Cache V).after requests
    let t := cache.store.tree
    (∀ key node l r, t.find? key = some node → t.find? key.left = some l →
      t.find? key.right = some r → ∃ a b, node.value = mul a b ∧
        (l.accuracy = node.accuracy → a = l.value) ∧
        (r.accuracy = node.accuracy → b = r.value)) ∧
    (∀ key node power value, t.find? key = some node → t.EvenUnder key power value →
      node.value = balancedProduct mul value (power - key.power).toNat key ∧
        ∀ J : DyadicInterval, key.contains J = true → J.power = power →
          t.contains J = true ∧ t.contains J.left = false) ∧
    ∀ source : Source V, source.Multiplies mul → ∀ I resolution answer cache',
      cache.answer source (.dyadic I) resolution = (.ok answer, cache') →
      (∀ J, cache'.store.tree.contains J = true → I.contains J = true →
        J.power ≤ max resolution I.power) →
      ∀ value, (∀ J leaf, cache'.store.tree.find? J = some leaf →
        cache'.store.tree.contains J.left = false → I.contains J = true → leaf.value = value J) →
        answer = balancedProduct mul value (max resolution I.power - I.power).toNat I := by
  intro cache t
  have hpolicy : cache.policy = policy := after_policy _ requests
  have h : Multiplied mul cache.policy.maxResolution cache.store := by
    rw [hpolicy]
    exact after_multiplied { policy, dissection } multiplies
      (multiplied_empty mul policy.maxResolution)
  refine ⟨?_, ?_, ?_⟩
  · exact fun key node l r hnode hl hr => (h.fresh key node hnode).product hl hr
  · intro key node power value hnode he
    obtain ⟨root, hroot⟩ := h.full.exists_fullUnder (contains_of_find? hnode)
    exact ⟨h.fresh.value_eq h.exact hroot hnode he, fun J hc hp =>
      he.leaf_of_power_eq h.exact hroot hnode hc hp⟩
  · intro source hsource I resolution answer cache' hanswer hfine value hvalue
    obtain ⟨hallow, hm, root, node, hroot, hnode, rfl, hacc, hpow⟩ :=
      dyadicValue_accurate hsource.combines h.toSteady h.exact (run_of_answer_ok hanswer)
    have h' : Multiplied mul cache.policy.maxResolution cache'.store :=
      hm.keep (fun _ _ hs hm => hm.multiplied hsource hallow hs) h
    apply h'.fresh.value_eq h'.exact hroot hnode
    intro J leaf hJ hl hc
    have hle := h'.modest.accuracy_le hroot hnode (contains_of_find? hJ) hl hc
    have hge := hfine J (contains_of_find? hJ) hc
    exact ⟨by omega, hvalue J leaf hJ hl hc⟩

/-- A root whose right half has become finer keeps the product it was made of. -/
theorem fresh_after_refinement :
    let T : Transcript := ⟨"v", [], false, some []⟩
    let t := (({} : Cache String).after
      [⟨T.source, .dyadic ⟨0, 0⟩, 0⟩, ⟨T.source, .dyadic ⟨1, 0⟩, 1⟩]).store.tree
    (t.find? ⟨0, -1⟩).map Node.value = some "(v0:0 v1:0)" ∧
      (t.find? ⟨1, 0⟩).map Node.value = some "(l2:1<v1:0 r3:1<v1:0)" ∧
      ∀ key node l r, t.find? key = some node → t.find? key.left = some l →
        t.find? key.right = some r → ∃ a b, node.value = "(" ++ a ++ " " ++ b ++ ")" ∧
          (l.accuracy = node.accuracy → a = l.value) ∧
          (r.accuracy = node.accuracy → b = r.value) := by
  dsimp only
  refine ⟨by cbv, by cbv, (fresh_after_requests (fun a b => "(" ++ a ++ " " ++ b ++ ")") {}
    Dissection.onGrid _ ?_).1⟩
  intro request hrequest
  simp only [List.mem_cons, List.not_mem_nil, or_false] at hrequest
  rcases hrequest with rfl | rfl
  · exact Transcript.multiplies _
  · exact Transcript.multiplies _

end Cache

end SignatureCache
