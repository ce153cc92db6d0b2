import Mathlib
import SignatureCache.Proofs.Cache.Sharpening
import SignatureCache.Proofs.Cache.Shelves
import SignatureCache.Source.Transcript

/-!
# What a query for an interval does

A query that passes the checks and lies on the root's side of zero brings its interval into the
tree, accurate to its resolution, unless the source refuses something or a key leaves its word. In a
sound store no key does. The conditions that a query can fail on otherwise are tested one after the
other, and what is refused leaves the tree as it was.
-/

namespace SignatureCache

open DyadicInterval SignatureCache.Tree

variable {V : Type} {source : Source V} {policy : Policy} {I R root : DyadicInterval}
  {resolution limit : Int} {s s' : Store V} {failure : Failure}

/-- The source refuses something with this error. -/
def Source.Refuses (source : Source V) (error : Error) : Prop :=
  (∃ nodes J, source.fresh nodes J = .error error) ∨
    ∃ nodes value left right, source.split nodes value left right = .error error

/-- A source that records refuses nothing if it has no intervals to refuse. -/
theorem Transcript.not_refuses (T : Transcript) (hfresh : T.refusedFresh = [])
    (hhalves : T.refusedHalves = none) (error : Error) : ¬ T.source.Refuses error := by
  rintro (⟨nodes, J, hv⟩ | ⟨nodes, value, left, right, hv⟩)
  · simp [Transcript.source, hfresh] at hv
  · simp [Transcript.source, hhalves, Source.halving] at hv

namespace Work

/-! ### Who is to blame -/

/-- No key on the way of a query for `I` leaves its words. -/
structure Fit (I : DyadicInterval) (s : Store V) : Prop where
  parent : ∀ {root}, s.tree.FullUnder root → SameSide root I → root.contains I = false →
    root.parent? = .ok root.parent
  half : ∀ {key}, s.tree.contains key = true → key.left? = .ok key.left

/-- Under an interval whose power is a word, keys fit on the way to an interval in it. -/
theorem fit_of_inside (h : s.Steady limit) (hlimit : limit < 0x7fffffff)
    (hR : -0x80000000 ≤ R.power) (hI : R.contains I = true)
    (inside : ∀ key, s.tree.contains key = true → R.contains key = true) : Fit I s where
  parent := by
    intro root hroot _ hout
    have hne : root ≠ R := by
      rintro rfl
      simp [hI] at hout
    have hkey := hroot.contains_root
    exact (h.inRange hkey).parent?_eq hlimit.le (inside root hkey) hne hR
  half := by
    intro key hkey
    have hp := power_le_of_contains (inside key hkey)
    exact (h.inRange hkey).left?_eq hlimit (by omega)

/-- In a sound store keys fit on the way to an interval that is not too coarse. -/
theorem fit_of_sound (h : s.Sound limit) (hlimit : limit < 0x7fffffff)
    (hI : (hemisphere I).contains I = true) : Fit I s where
  parent := by
    intro root hroot hside hout
    have hp : -0x80000000 ≤ lowestPower - 52 := by decide
    refine (fit_of_inside h.toSteady hlimit hp hI ?_).parent hroot hside hout
    intro key hkey
    have hkeys := (sameSide_of_contains (hroot.root_contains hkey)).symm.trans hside
    rw [← hemisphere_eq_of_sameSide hkeys]
    exact h.inside hkey
  half := by
    intro key hkey
    have hp : lowestPower - 52 ≤ key.power := power_le_of_contains (h.inside hkey)
    rw [lowestPower] at hp
    exact (h.inRange hkey).left?_eq hlimit (by omega)

/-- Where keys fit, only the source is to blame. -/
theorem Blamed.refuses (hb : Blamed source I s failure) (combines : source.Combines)
    (hfit : Fit I s) : ∃ error, failure = .error error ∧ source.Refuses error := by
  cases hb with
  | fresh hv => exact ⟨_, rfl, .inl ⟨_, _, hv⟩⟩
  | split hv => exact ⟨_, rfl, .inr ⟨_, _, _, _, hv⟩⟩
  | @combine nodes a b half fault hc =>
    obtain ⟨value, hv⟩ := combines nodes a b half
    cases hc.symm.trans hv
  | parent hroot hside hout hq =>
    rw [hfit.parent hroot hside hout] at hq
    cases hq
  | half hkey hq =>
    rw [hfit.half hkey] at hq
    cases hq

/-! ### The phases of an accepted query -/

/-- The interval is cached, at least as accurate as asked for. -/
def Reached (I : DyadicInterval) (resolution : Int) (s : Store V) : Prop :=
  ∃ root node, s.tree.FullUnder root ∧ s.tree.find? I = some node ∧ resolution ≤ node.accuracy

section Accepted

variable (combines : source.Combines) (hallow : policy.allowInterval I resolution = .ok ())

include combines hallow

theorem sharpen_ends (h : s.Steady policy.maxResolution) (hx : s.tree.Exact)
    (hI : s.tree.contains I = true) :
    Ends (sharpen policy source I resolution) s
      (fun _ s' => Moves source I resolution s s' ∧ Reached I resolution s')
      (fun failure s' => Moves source I resolution s s' ∧ Blamed source I s' failure) := by
  obtain ⟨root, hroot⟩ := h.full.exists_fullUnder hI
  obtain ⟨levels, hdeep⟩ := exists_deep s.tree resolution I
  rw [ends_congr (sharpen_run source hallow h hI hdeep)]
  refine Ends.bind ((tour_ends policy ⟨hroot, h.modest, hI, hdeep.desired_lt.le⟩
    (contains_self I)).mono (fun _ _ => id) ?_) ?_
  · exact fun failure s₁ hend => ⟨hend.moves, hend.blamed⟩
  · intro _ s₁ htoured
    obtain ⟨node, hnode⟩ := exists_find?_of_contains ((htoured.keys I).2 (.inl hI))
    have hexact := (htoured.moves.exact combines h.full hx).2
    have hacc := le_accuracy_of_keys htoured.full hexact hnode fun J hJ hpJ =>
      (htoured.keys J).2 (.inr ⟨hJ, hpJ⟩)
    rw [ends_of_ok (confirm_run hnode hacc)]
    exact ⟨htoured.moves, root, node, htoured.full, hnode, hacc⟩

theorem reach_ends (h : s.Steady policy.maxResolution) (hx : s.tree.Exact)
    (hside : ∀ root, s.tree.root? = some root → SameSide root I) :
    Ends (reach policy source I resolution) s
      (fun _ s' => Moves source I resolution s s' ∧ Reached I resolution s')
      (fun failure s' => Moves source I resolution s s' ∧ Blamed source I s' failure) := by
  have hsharpen : ∀ {s₁ : Store V}, Moves source I resolution s s₁ → s₁.tree.contains I = true →
      Ends (sharpen policy source I resolution) s₁
        (fun _ s' => Moves source I resolution s s' ∧ Reached I resolution s')
        (fun failure s' => Moves source I resolution s s' ∧ Blamed source I s' failure) := by
    intro s₁ hm hI
    exact (sharpen_ends combines hallow (hm.steady hallow h) (hm.exact combines h.full hx).2
      hI).after hm
  rcases h.full with hempty | ⟨root, hroot⟩
  · rw [ends_congr (reach_empty policy source I resolution hempty)]
    apply (plant_ends resolution hempty).bind
    rintro _ s₁ ⟨hm, value, rfl⟩
    have hfull := fullUnder_planted (I := I) hempty value
    by_cases hlt : I.power < resolution
    · rw [if_pos hlt]
      exact hsharpen hm hfull.contains_root
    · rw [if_neg hlt]
      exact ⟨hm, I, _, hfull, find?_put_self _ _ _, not_lt.1 hlt⟩
  · have side := hside root hroot.root?_eq
    rw [ends_congr (reach_root policy source I resolution hroot), grow_sameSide source side]
    apply (growToContain_ends resolution side hroot).bind
    rintro top s₁ ⟨hm, hfull, hc⟩
    apply ((descend_ends resolution hfull hc).after hm).bind
    rintro _ s₂ ⟨hm, hfull, hI⟩
    exact hsharpen hm hI

/-- On the root's side an accepted query is answered from an accurate node, unless something is to
blame. -/
theorem dyadicValue_ends (h : s.Steady policy.maxResolution) (hx : s.tree.Exact)
    (hside : ∀ root, s.tree.root? = some root → SameSide root I) :
    Ends (dyadicValue policy source I resolution) s
      (fun value s' => Moves source I resolution s s' ∧ ∃ root node, s'.tree.FullUnder root ∧
        s'.tree.find? I = some node ∧ node.value = value ∧ resolution ≤ node.accuracy ∧
        I.power ≤ node.accuracy)
      (fun failure s' => Moves source I resolution s s' ∧ Blamed source I s' failure) := by
  have hask : Moves source I resolution s s.asked := .single (.ask s)
  -- What is left to do once the query is counted.
  have hrest : ∀ {x : Work V Unit},
      Ends x s.asked
        (fun _ s' => Moves source I resolution s.asked s' ∧ Reached I resolution s')
        (fun failure s' => Moves source I resolution s.asked s' ∧ Blamed source I s' failure) →
      Ends (x >>= fun _ => stored I) s.asked
        (fun value s' => Moves source I resolution s s' ∧ ∃ root node, s'.tree.FullUnder root ∧
          s'.tree.find? I = some node ∧ node.value = value ∧ resolution ≤ node.accuracy ∧
          I.power ≤ node.accuracy)
        (fun failure s' => Moves source I resolution s s' ∧ Blamed source I s' failure) := by
    intro x hend
    apply (hend.after hask).bind
    rintro _ s₁ ⟨hm, root, node, hroot, hnode, hacc⟩
    have hexact := (hm.exact combines h.full hx).2
    rw [ends_of_ok (stored_run hnode)]
    exact ⟨hm, root, node, hroot, hnode, rfl, hacc, hexact.power_le hroot hnode⟩
  cases found s I resolution with
  | absent hno =>
    rw [ends_congr (dyadicValue_absent source hallow hno)]
    exact hrest (reach_ends combines hallow (hask.steady hallow h) hx hside)
  | @accurate node hnode hr =>
    obtain ⟨root, hroot⟩ := h.full.exists_fullUnder (contains_of_find? hnode)
    rw [ends_of_ok (dyadicValue_hit source hallow hnode hr)]
    exact ⟨.single (.hit hnode hr), root, node, hroot, hnode, rfl, hr, hx.power_le hroot hnode⟩
  | coarse hnode hlt =>
    rw [ends_congr (dyadicValue_cached source hallow hnode hlt)]
    exact hrest (sharpen_ends combines hallow (hask.steady hallow h) hx (contains_of_find? hnode))

end Accepted

/-! ### The query in a sound store -/

/-- An interval on the other side of zero is refused, and only counted. -/
theorem dyadicValue_unreachable (source : Source V)
    (hallow : policy.allowInterval I resolution = .ok ()) (hroot : s.tree.FullUnder root)
    (hside : ¬ SameSide root I) :
    dyadicValue policy source I resolution s =
      .error (.error (.rootUnreachable root I)) s.asked := by
  have hno : s.tree.contains I = false := by
    rw [Bool.eq_false_iff]
    intro hI
    exact hside (sameSide_of_contains (hroot.root_contains hI))
  have hreach := reach_root (s := s.asked) policy source I resolution hroot
  rw [grow_unreachable source hside] at hreach
  rw [dyadicValue_absent source hallow hno, bind_congr_run hreach]
  rfl

/-- In a sound store an accepted query on the root's side is answered from an accurate node, or the
source refuses it. -/
theorem dyadicValue_sound (combines : source.Combines)
    (hlimit : policy.maxResolution < 0x7fffffff)
    (hallow : policy.allowInterval I resolution = .ok ()) (hp : lowestPower ≤ I.power)
    (h : s.Sound policy.maxResolution)
    (hside : ∀ root, s.tree.root? = some root → SameSide root I) :
    Ends (dyadicValue policy source I resolution) s
      (fun value s' => ∃ root node, s'.tree.FullUnder root ∧ s'.tree.find? I = some node ∧
        node.value = value ∧ resolution ≤ node.accuracy ∧ I.power ≤ node.accuracy)
      (fun failure _ => ∃ error, failure = .error error ∧ source.Refuses error) := by
  have hI := hemisphere_contains_of_allowInterval hallow hp
  apply (dyadicValue_ends combines hallow h.toSteady h.exact hside).mono
  · exact fun value s' hend => hend.2
  · rintro failure s' ⟨hm, hb⟩
    exact hb.refuses combines (fit_of_sound (hm.sound combines hallow hI h) hlimit hI)

/-- However a query for an interval ends, no assumption of the cache is broken. -/
theorem dyadicValue_no_fault (combines : source.Combines)
    (hlimit : policy.maxResolution < 0x7fffffff) (hp : lowestPower ≤ I.power)
    (h : s.Sound policy.maxResolution) :
    Ends (dyadicValue policy source I resolution) s (fun _ _ => True)
      (fun failure _ => ∃ error, failure = .error error) := by
  cases hallow : policy.allowInterval I resolution with
  | error error =>
    rw [ends_of_error (dyadicValue_refused source s hallow)]
    exact ⟨error, rfl⟩
  | ok _ =>
    by_cases hside : ∀ root, s.tree.root? = some root → SameSide root I
    · apply (dyadicValue_sound combines hlimit hallow hp h hside).mono
      · exact fun _ _ _ => trivial
      · rintro failure _ ⟨error, rfl, -⟩
        exact ⟨error, rfl⟩
    · push Not at hside
      obtain ⟨root, hroot?, hside⟩ := hside
      obtain ⟨root', hroot⟩ := h.full.exists_fullUnder (root?_eq_some_iff.1 hroot?).1
      cases hroot.root?_eq.symm.trans hroot?
      rw [ends_of_error (dyadicValue_unreachable source hallow hroot hside)]
      exact ⟨_, rfl⟩

end Work

/-- The request comes from a source that can combine, for no interval coarser than is known to be
served. -/
structure Request.Proper (request : Request V) (dissection : Dissection) : Prop where
  combines : request.source.Combines
  lowest : ∀ I ∈ request.intervals dissection, lowestPower ≤ I.power

namespace Cache

open Work

variable {τ : Type} {cache : Cache V} {requests : List (Request V)} {request : Request V}

theorem after_sound (cache : Cache V)
    (proper : ∀ request ∈ requests, request.Proper cache.dissection)
    (h : cache.store.Sound cache.policy.maxResolution) :
    (cache.after requests).store.Sound cache.policy.maxResolution := by
  apply after_induction (fun _ hs => hs.full) _ h
  intro request hrequest I hI hallow s s' hs hm
  have hproper := proper request hrequest
  have hinside := hemisphere_contains_of_allowInterval hallow (hproper.lowest I hI)
  exact hm.sound hproper.combines hallow hinside hs

/-- A proper request only ends in a fault if its source cannot combine the values of the pieces. -/
theorem answer_fault {fault : Fault} (proper : request.Proper cache.dissection)
    (hlimit : cache.policy.maxResolution < 0x7fffffff)
    (h : cache.store.Sound cache.policy.maxResolution)
    (hfault : (cache.answer request.source request.query request.resolution).1 =
      .error (.fault fault)) :
    ∃ nodes values, request.source.combineAll nodes values = .error fault := by
  have hends : Ends (Work.answer cache.policy cache.dissection request.source request.query
      request.resolution) cache.store (fun _ _ => True)
      (fun failure _ => ∀ fault, failure = .fault fault →
        ∃ nodes values, request.source.combineAll nodes values = .error fault) := by
    have hlowest := proper.lowest
    unfold Request.intervals at hlowest
    cases hquery : request.query with
    | dyadic I =>
      rw [hquery] at hlowest
      apply (dyadicValue_no_fault proper.combines hlimit (hlowest I (by simp)) h).mono
      · exact fun _ _ _ => trivial
      · rintro _ _ ⟨error, rfl⟩ fault ⟨⟩
    | real I =>
      rw [hquery] at hlowest
      refine Ends.mono (realValue_ends (P := fun s => s.Sound cache.policy.maxResolution)
        (R := fun _ _ => True) (F := fun failure => ∀ fault, failure = .fault fault →
          ∃ nodes values, request.source.combineAll nodes values = .error fault)
        ?_ ?_ ?_ h) (fun _ _ _ => trivial) (fun _ _ hend => hend.2)
      · intro pieces hpieces J hJ s hs
        have hp : lowestPower ≤ J.power := by
          simp only [hpieces] at hlowest
          exact hlowest J hJ
        apply ((dyadicValue_keeps cache.policy (fun _ hs => hs.full)
          (fun hallow _ _ hs hm => hm.sound proper.combines hallow
            (hemisphere_contains_of_allowInterval hallow hp) hs) hs).and
            (dyadicValue_no_fault proper.combines hlimit hp hs)).mono
        · exact fun _ _ hend => ⟨hend.1.1, trivial⟩
        · rintro _ s' ⟨hs', error, rfl⟩
          exact ⟨hs', fun fault heq => nomatch heq⟩
      · rintro error fault ⟨⟩
      · rintro nodes values fault hfault _ ⟨⟩
        exact ⟨nodes, values, hfault⟩
  rw [answer] at hfault
  unfold Ends at hends
  split at hfault
  · cases hfault
  · next failure _ hrun =>
    rw [hrun] at hends
    cases hfault
    exact hends fault rfl

/-- How a cache is to answer an interval when the source refuses nothing: the conditions are tested
in order, the first three leave the cache as it is and the fourth only counts the query; where all
hold, the value is the one stored at the interval, which is a key as accurate as asked for, under
the root. -/
structure Contract (cache : Cache V) (I : DyadicInterval) (resolution : Int)
    (outcome : Except Failure V × Cache V) : Prop where
  tooFine : cache.policy.maxResolution < resolution →
    outcome = (.error (.error (.resolutionTooFine resolution cache.policy.maxResolution)), cache)
  tooFineInterval : resolution ≤ cache.policy.maxResolution →
    cache.policy.maxResolution < I.power →
    outcome = (.error (.error (.resolutionTooFine I.power cache.policy.maxResolution)), cache)
  outOfRange : resolution ≤ cache.policy.maxResolution → I.power ≤ cache.policy.maxResolution →
    offsetsFit I resolution = false →
    outcome = (.error (.error (.offsetOutOfRange I resolution)), cache)
  unreachable : resolution ≤ cache.policy.maxResolution → I.power ≤ cache.policy.maxResolution →
    offsetsFit I resolution = true → ∀ root, cache.store.tree.root? = some root →
    ¬ SameSide root I →
    outcome =
      (.error (.error (.rootUnreachable root I)), { cache with store := cache.store.asked })
  served : resolution ≤ cache.policy.maxResolution → I.power ≤ cache.policy.maxResolution →
    offsetsFit I resolution = true →
    (∀ root, cache.store.tree.root? = some root → SameSide root I) →
    ∃ root node s, outcome = (.ok node.value, { cache with store := s }) ∧
      s.tree.root? = some root ∧ root.contains I = true ∧ s.tree.find? I = some node ∧
      max resolution I.power ≤ node.accuracy

/-- The conditions of a contract are those of an answer. -/
theorem Contract.isOk_iff {outcome : Except Failure V × Cache V}
    (h : cache.Contract I resolution outcome) :
    (∃ value, outcome.1 = .ok value) ↔
      resolution ≤ cache.policy.maxResolution ∧ I.power ≤ cache.policy.maxResolution ∧
        offsetsFit I resolution = true ∧
        ∀ root, cache.store.tree.root? = some root → SameSide root I := by
  constructor
  · rintro ⟨value, hvalue⟩
    have hr : resolution ≤ cache.policy.maxResolution := by
      by_contra hcon
      rw [h.tooFine (not_le.1 hcon)] at hvalue
      cases hvalue
    have hp : I.power ≤ cache.policy.maxResolution := by
      by_contra hcon
      rw [h.tooFineInterval hr (not_le.1 hcon)] at hvalue
      cases hvalue
    have hfits : offsetsFit I resolution = true := by
      by_contra hcon
      rw [h.outOfRange hr hp (Bool.eq_false_iff.2 hcon)] at hvalue
      cases hvalue
    refine ⟨hr, hp, hfits, ?_⟩
    intro root hroot
    by_contra hside
    rw [h.unreachable hr hp hfits root hroot hside] at hvalue
    cases hvalue
  · rintro ⟨hr, hp, hfits, hside⟩
    obtain ⟨root, node, s, houtcome, -⟩ := h.served hr hp hfits hside
    exact ⟨node.value, by rw [houtcome]⟩

theorem contract_of_sound (combines : source.Combines) (willing : ∀ error, ¬ source.Refuses error)
    (hlimit : cache.policy.maxResolution < 0x7fffffff) (hp : lowestPower ≤ I.power)
    (h : cache.store.Sound cache.policy.maxResolution) :
    cache.Contract I resolution (cache.answer source (.dyadic I) resolution) := by
  have hchecks := allowInterval_eq cache.policy I resolution
  constructor
  case tooFine =>
    intro hr
    rw [if_pos hr] at hchecks
    exact answer_dyadic_of_error (dyadicValue_refused source _ hchecks)
  case tooFineInterval =>
    intro hr hpow
    rw [if_neg (not_lt.2 hr), if_pos hpow] at hchecks
    exact answer_dyadic_of_error (dyadicValue_refused source _ hchecks)
  case outOfRange =>
    intro hr hpow hfits
    rw [if_neg (not_lt.2 hr), if_neg (not_lt.2 hpow), if_pos hfits] at hchecks
    exact answer_dyadic_of_error (dyadicValue_refused source _ hchecks)
  case unreachable =>
    intro hr hpow hfits root hroot? hside
    have hallow := allowInterval_eq_ok_iff.2 ⟨hr, hpow, hfits⟩
    obtain ⟨root', hroot⟩ := h.full.exists_fullUnder (root?_eq_some_iff.1 hroot?).1
    cases hroot.root?_eq.symm.trans hroot?
    exact answer_dyadic_of_error (dyadicValue_unreachable source hallow hroot hside)
  case served =>
    intro hr hpow hfits hside
    have hallow := allowInterval_eq_ok_iff.2 ⟨hr, hpow, hfits⟩
    have hends := dyadicValue_sound combines hlimit hallow hp h hside
    cases hrun : dyadicValue cache.policy source I resolution cache.store with
    | error failure s =>
      rw [ends_of_error hrun] at hends
      obtain ⟨error, -, hrefuses⟩ := hends
      exact absurd hrefuses (willing error)
    | ok value s =>
      rw [ends_of_ok hrun] at hends
      obtain ⟨root, node, hroot, hnode, rfl, hacc, hpacc⟩ := hends
      exact ⟨root, node, s, answer_dyadic_of_ok hrun, hroot.root?_eq,
        hroot.root_contains (contains_of_find? hnode), hnode, max_le hacc hpacc⟩

/-- Suppose that no proper request to an empty cache has broken off for want of a comparison. A
query for an interval is then answered exactly if it passes the checks and lies on the root's side
of zero, as the contract says in detail, unless it breaks off itself. And whatever the source of a
proper request refuses, the request ends without a fault, unless it breaks off, or the source has its
own way to combine many values and that fails. -/
theorem contract_after_requests [Shelf V τ] (policy : Policy) (dissection : Dissection)
    (requests : List (Request V)) (hlimit : policy.maxResolution < 0x7fffffff)
    (proper : ∀ request ∈ requests, request.Proper dissection)
    (compares : ({ policy, dissection } : Cache V τ).compares requests = true) :
    let cache := ({ policy, dissection } : Cache V τ).after requests
    (∀ (source : Source V) (I : DyadicInterval) (resolution : Int), source.Combines →
      (∀ error, ¬ source.Refuses error) → lowestPower ≤ I.power →
      let request : Request V := ⟨source, .dyadic I, resolution⟩
      cache.breaksOff request = false →
      cache.plain.Contract I resolution (cache.outcome request) ∧
      ((∃ value, (cache.outcome request).1 = .ok value) ↔
        resolution ≤ policy.maxResolution ∧ I.power ≤ policy.maxResolution ∧
          offsetsFit I resolution = true ∧
          ∀ root, cache.plain.store.tree.root? = some root → SameSide root I)) ∧
    ∀ request : Request V, request.Proper dissection → ∀ fault,
      (cache.outcome request).1 = .error (.fault fault) → cache.breaksOff request = false →
      ∃ nodes values, request.source.combineAll nodes values = .error fault := by
  intro cache
  have hplain : cache.plain = ({ policy, dissection } : Cache V).after requests := by
    rw [plain_after compares, plain_new]
  have hpolicy : cache.plain.policy = policy := by rw [plain_policy, after_policy]
  have hdissection : cache.plain.dissection = dissection := by
    rw [plain_dissection, after_dissection]
  have hsound : cache.plain.store.Sound cache.plain.policy.maxResolution := by
    rw [hplain, after_policy]
    exact after_sound { policy, dissection } proper (sound_empty policy.maxResolution)
  rw [← hpolicy] at hlimit
  refine ⟨?_, ?_⟩
  · intro source I resolution combines willing hp request hbreak
    have hcontract : cache.plain.Contract I resolution (cache.outcome request) := by
      rw [outcome_eq hbreak]
      exact contract_of_sound combines willing hlimit hp hsound
    rw [← hpolicy]
    exact ⟨hcontract, hcontract.isOk_iff⟩
  · intro request hrequest fault hfault hbreak
    rw [outcome_eq hbreak] at hfault
    rw [← hdissection] at hrequest
    exact answer_fault hrequest hlimit hsound hfault

/-- A root that could not be grown, as its neighbour was refused, grows for a source that refuses
nothing. -/
theorem contract_after_refusal :
    let T : Transcript := ⟨"v", [], false, none⟩
    let R : Transcript := ⟨"w", [⟨1, 0⟩], false, none⟩
    let cache := ({} : IndexedCache String).after
      [⟨T.source, .dyadic ⟨0, 0⟩, 1⟩, ⟨R.source, .dyadic ⟨1, 0⟩, 0⟩]
    let request : Request String := ⟨T.source, .dyadic ⟨1, 0⟩, 2⟩
    cache.plain.store.tree.root? = some ⟨0, 0⟩ ∧ cache.breaksOff request = false ∧
      cache.plain.Contract ⟨1, 0⟩ 2 (cache.outcome request) ∧
      ∀ fault, (cache.outcome ⟨R.source, .dyadic ⟨1, 0⟩, 2⟩).1 ≠ .error (.fault fault) := by
  dsimp only
  have hlimit : ({} : Policy).maxResolution < 0x7fffffff := by decide
  have willing : ∀ error, ¬ (Transcript.source ⟨"v", [], false, none⟩).Refuses error :=
    Transcript.not_refuses _ rfl rfl
  have proper : ∀ request ∈ ([⟨Transcript.source ⟨"v", [], false, none⟩, .dyadic ⟨0, 0⟩, 1⟩,
      ⟨Transcript.source ⟨"w", [⟨1, 0⟩], false, none⟩, .dyadic ⟨1, 0⟩, 0⟩] : List (Request String)),
      request.Proper Dissection.onGrid := by
    intro request hrequest
    simp only [List.mem_cons, List.not_mem_nil, or_false] at hrequest
    rcases hrequest with rfl | rfl
    · exact ⟨Transcript.combines _, by simp [Request.intervals, lowestPower]⟩
    · exact ⟨Transcript.combines _, by simp [Request.intervals, lowestPower]⟩
  have compares : ({} : IndexedCache String).compares
      [⟨Transcript.source ⟨"v", [], false, none⟩, .dyadic ⟨0, 0⟩, 1⟩,
        ⟨Transcript.source ⟨"w", [⟨1, 0⟩], false, none⟩, .dyadic ⟨1, 0⟩, 0⟩] = true := by
    cbv
  obtain ⟨hcontract, hfault⟩ :=
    contract_after_requests {} Dissection.onGrid _ hlimit proper compares
  have hbreak : (({} : IndexedCache String).after
      [⟨Transcript.source ⟨"v", [], false, none⟩, .dyadic ⟨0, 0⟩, 1⟩,
        ⟨Transcript.source ⟨"w", [⟨1, 0⟩], false, none⟩, .dyadic ⟨1, 0⟩, 0⟩]).breaksOff
      ⟨Transcript.source ⟨"v", [], false, none⟩, .dyadic ⟨1, 0⟩, 2⟩ = false := by
    cbv
  refine ⟨by cbv, hbreak, (hcontract _ ⟨1, 0⟩ 2 (Transcript.combines _) willing (by decide)
    hbreak).1, ?_⟩
  intro fault hends
  obtain ⟨nodes, values, hfails⟩ := hfault ⟨_, .dyadic ⟨1, 0⟩, 2⟩ ⟨Transcript.combines _, by
    simp [Request.intervals, lowestPower]⟩ fault hends (by cbv)
  obtain ⟨value, hvalue⟩ := Transcript.combinesAll _ nodes values
  cases hfails.symm.trans hvalue

/-- A query for an interval 63 levels below the only cached one ends at their comparison, though it
passes all checks. -/
theorem contract_broken_at_sign_bit :
    let T : Transcript := ⟨"v", [], false, none⟩
    let cache := ({} : IndexedCache String).after [⟨T.source, .dyadic ⟨0, -31⟩, -31⟩]
    let request : Request String := ⟨T.source, .dyadic ⟨0, 32⟩, 32⟩
    T.source.Combines ∧ (∀ error, ¬ T.source.Refuses error) ∧
    (32 ≤ cache.plain.policy.maxResolution ∧ offsetsFit ⟨0, 32⟩ 32 = true ∧
      cache.plain.store.tree.root? = some ⟨0, -31⟩ ∧ SameSide ⟨0, -31⟩ ⟨0, 32⟩) ∧
    (cache.outcome request).1 = .error (.fault (.incomparable ⟨0, 32⟩ ⟨0, -31⟩)) ∧
    ¬ cache.plain.Contract ⟨0, 32⟩ 32 (cache.outcome request) := by
  intro T cache request
  have hresult : (cache.outcome request).1 =
      .error (.fault (.incomparable ⟨0, 32⟩ ⟨0, -31⟩)) := by
    simp only [cache, request, T]
    cbv
  have hroot : cache.plain.store.tree.root? = some ⟨0, -31⟩ := by
    simp only [cache, T]
    cbv
  have hlimit : 32 ≤ cache.plain.policy.maxResolution := by
    rw [plain_policy, after_policy]
  refine ⟨Transcript.combines T, Transcript.not_refuses T rfl rfl,
    ⟨hlimit, by decide, hroot, by decide⟩, hresult, ?_⟩
  intro hcontract
  obtain ⟨root, node, s, houtcome, -⟩ := hcontract.served hlimit hlimit (by decide) (by
    intro root hroot'
    cases hroot.symm.trans hroot'
    decide)
  rw [houtcome] at hresult
  cases hresult

end Cache

end SignatureCache
