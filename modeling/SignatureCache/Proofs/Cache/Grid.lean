import Mathlib
import SignatureCache.Proofs.Cover
import SignatureCache.Proofs.Cache.Errors
import SignatureCache.Proofs.Cache.Reordering

/-!
# The dissection and the cache accept the same grid

Every piece of a dissection on the grid passes the checks of the cache, so a query for a real
interval is never refused for the offsets of a piece, and for a resolution only if it is its own.
What is left to go wrong in an empty cache is zero: the pieces on one side are answered, and the
first piece on the other side can not be reached from their root.
-/

namespace SignatureCache

open DyadicInterval SignatureCache.Tree

variable {V : Type}

namespace Work

variable {source : Source V} {policy : Policy} {I : DyadicInterval} {resolution limit : Int}
  {s s' : Store V} {pieces : List DyadicInterval} {negative : Prop}

/-- What makes an interval a piece of a dissection: a cache that is limited to its resolution
accepts it, and it lies in its hemisphere. -/
structure Fitting (I : DyadicInterval) (resolution : Int) : Prop where
  allow : ({ maxResolution := resolution } : Policy).allowInterval I resolution = .ok ()
  inside : (hemisphere I).contains I = true

theorem fitting_of_mem_cover {lo hi : Int} (hlo : -Dissection.offsetLimit ≤ lo)
    (hhi : hi ≤ Dissection.offsetLimit) (hlow : lowestPower ≤ resolution)
    (hI : I ∈ Dissection.cover lo hi resolution) : Fitting I resolution where
  allow := Dissection.allowInterval_of_mem_cover hlo hhi le_rfl hI
  inside := Dissection.hemisphere_contains_of_mem_cover hlo hhi hlow hI

/-- The tree is empty or its root lies on one side of zero. -/
def OnSide (negative : Prop) (s : Store V) : Prop :=
  ∀ root, s.tree.root? = some root → (root.offset < 0 ↔ negative)

theorem onSide_of_empty (h : s.tree = empty) : OnSide negative s := by
  intro root hroot
  rw [root?_eq_none_iff.2 h] at hroot
  cases hroot

section Willing

variable (combines : source.Combines) (combinesAll : source.CombinesAll)
  (willing : ∀ error, ¬ source.Refuses error)
  (hlimit : resolution < 0x7fffffff) (hle : resolution ≤ policy.maxResolution)

include combines willing hlimit hle

/-- A piece on the root's side of zero is answered. -/
theorem dyadicValue_piece (hI : Fitting I resolution) (hside : I.offset < 0 ↔ negative)
    (h : s.Sound resolution) (hroot : OnSide negative s) :
    ∃ value s', dyadicValue policy source I resolution s = .ok value s' ∧ s'.Sound resolution ∧
      OnSide negative s' ∧ s'.tree ≠ empty := by
  obtain ⟨-, hpower, hfits⟩ := allowInterval_eq_ok_iff.1 hI.allow
  have hallow : policy.allowInterval I resolution = .ok () :=
    allowInterval_eq_ok_iff.2 ⟨hle, hpower.trans hle, hfits⟩
  have hends := dyadicValue_ends combines hallow (h.toSteady.mono hle) h.exact
    fun root hroot? => (hroot root hroot?).trans hside.symm
  cases hrun : dyadicValue policy source I resolution s with
  | ok value s' =>
    rw [ends_of_ok hrun] at hends
    obtain ⟨hm, root, node, hfull, hnode, -⟩ := hends
    refine ⟨value, s', rfl, hm.sound combines hI.allow hI.inside h, ?_, ?_⟩
    · intro root' hroot'
      cases hfull.root?_eq.symm.trans hroot'
      have hsame := sameSide_of_contains (hfull.root_contains (contains_of_find? hnode))
      exact Iff.trans hsame hside
    · rintro heq
      simp [heq] at hnode
  | error failure s' =>
    rw [ends_of_error hrun] at hends
    obtain ⟨hm, hb⟩ := hends
    have hsound := hm.sound combines hI.allow hI.inside h
    obtain ⟨error, -, hrefuses⟩ := hb.refuses combines (fit_of_sound hsound hlimit hI.inside)
    exact absurd hrefuses (willing error)

/-- Pieces on the root's side of zero are all answered. -/
theorem mapM_pieces (hpieces : ∀ J ∈ pieces, Fitting J resolution ∧ (J.offset < 0 ↔ negative))
    (h : s.Sound resolution) (hroot : OnSide negative s) :
    ∃ values s', pieces.mapM (fun J => dyadicValue policy source J resolution) s = .ok values s' ∧
      s'.Sound resolution ∧ OnSide negative s' ∧
      (s.tree ≠ empty ∨ pieces ≠ [] → s'.tree ≠ empty) := by
  induction pieces generalizing s with
  | nil => exact ⟨[], s, rfl, h, hroot, fun hne => hne.resolve_right fun hnil => hnil rfl⟩
  | cons J pieces ih =>
    obtain ⟨hJ, hside⟩ := hpieces J List.mem_cons_self
    obtain ⟨value, s₁, hvalue, h₁, hroot₁, hne⟩ :=
      dyadicValue_piece combines willing hlimit hle hJ hside h hroot
    obtain ⟨values, s', hvalues, h', hroot', hkept⟩ :=
      ih (fun K hK => hpieces K (List.mem_cons_of_mem J hK)) h₁ hroot₁
    refine ⟨value :: values, s', ?_, h', hroot', fun _ => hkept (.inl hne)⟩
    rw [List.mapM_cons, bind_of_ok hvalue, bind_of_ok hvalues]
    rfl

end Willing

end Work

namespace Cache

open Work

variable {policy : Policy} {source : Source V} {I : RealInterval} {resolution lo hi : Int}

/-! ### Errors in any store -/

theorem allowInterval_of_onGrid {pieces : List DyadicInterval}
    (hlimit : resolution ≤ policy.maxResolution)
    (hpieces : Dissection.onGrid I resolution = .ok pieces) :
    ∀ J ∈ pieces, policy.allowInterval J resolution = .ok () := by
  rcases Dissection.onGrid_cases I resolution with ⟨reason, hfails⟩ | ⟨lo, hi, hlo, hhi, hcover⟩
  · cases hfails.symm.trans hpieces
  · cases hcover.symm.trans hpieces
    intro J hJ
    exact Dissection.allowInterval_of_mem_cover (Dissection.range_of_gridPoint hlo).1
      (Dissection.range_of_gridPoint hhi).2.1 hlimit hJ

/-- The errors of a query for a real interval that is dissected on the grid. -/
theorem error_of_answer_onGrid {store : Store V} {error : Error} {cache' : Cache V}
    (h : (⟨policy, Dissection.onGrid, store⟩ : Cache V).answer source (.real I) resolution =
      (.error (.error error), cache')) :
    (policy.maxResolution < resolution ∧
      error = .resolutionTooFine resolution policy.maxResolution) ∨
    (∃ reason, error = .dissection reason) ∨ source.Stops error := by
  have hraises : Raises (fun error => policy.allow resolution = .error error ∨
      Dissection.onGrid I resolution = .error error ∨ source.Stops error)
      (Work.realValue policy Dissection.onGrid source I resolution) := by
    apply Raises.realValue
    intro pieces hallow hpieces
    rcases allow_cases policy resolution with ⟨hlimit, -⟩ | ⟨-, hrefused⟩
    · exact allowInterval_of_onGrid hlimit hpieces
    · cases hallow.symm.trans hrefused
  have hrun : Work.realValue policy Dissection.onGrid source I resolution store =
      .error (.error error) cache'.store := run_of_answer_error h
  have hends := hraises store
  rw [ends_of_error hrun] at hends
  rcases hends error rfl with hrefused | hundissected | hstops
  · rcases allow_cases policy resolution with ⟨-, hallow⟩ | ⟨hlimit, hrefused'⟩
    · cases hallow.symm.trans hrefused
    · cases hrefused'.symm.trans hrefused
      exact .inl ⟨hlimit, rfl⟩
  · rcases Dissection.onGrid_cases I resolution with ⟨reason, hfails⟩ | ⟨lo, hi, -, -, hcover⟩
    · cases hfails.symm.trans hundissected
      exact .inr (.inl ⟨reason, rfl⟩)
    · cases hcover.symm.trans hundissected
  · exact .inr (.inr hstops)

/-! ### Zero in an empty cache -/

/-- The query for an interval comes down to the queries for its pieces. -/
theorem realValue_onGrid (source : Source V) (s : Store V)
    (hlimit : resolution ≤ policy.maxResolution) (hempty : I.isEmpty = false)
    (hlo : Dissection.gridPoint I.start resolution = .ok lo)
    (hhi : Dissection.gridPoint I.stop resolution = .ok hi) :
    Work.realValue policy Dissection.onGrid source I resolution s =
      ((Dissection.cover lo hi resolution).mapM
        (fun J => Work.dyadicValue policy source J resolution) >>= fun values =>
          tree >>= fun t => orFault (source.combineAll t.size values)) s := by
  rcases allow_cases policy resolution with ⟨-, hallow⟩ | ⟨hlt, -⟩
  · exact realValue_of_pieces source s hempty hallow (Dissection.onGrid_eq hlo hhi)
  · omega

section Empty

variable (combines : source.Combines) (willing : ∀ error, ¬ source.Refuses error)
  (hlow : lowestPower ≤ resolution) (hlimit : resolution ≤ policy.maxResolution)
  (hempty : I.isEmpty = false) (hlo : Dissection.gridPoint I.start resolution = .ok lo)
  (hhi : Dissection.gridPoint I.stop resolution = .ok hi)

include combines willing hlow hlimit hempty hlo hhi

/-- An interval on one side of zero is answered. -/
theorem answer_onGrid_of_side (combinesAll : source.CombinesAll)
    (hside : ¬ (lo < 0 ∧ 0 < hi)) :
    ∃ value, (({ policy } : Cache V).answer source (.real I) resolution).1 = .ok value := by
  obtain ⟨hlo', -, hfine⟩ := Dissection.range_of_gridPoint hlo
  obtain ⟨-, hhi', -⟩ := Dissection.range_of_gridPoint hhi
  have hpieces : ∀ J ∈ Dissection.cover lo hi resolution,
      Fitting J resolution ∧ (J.offset < 0 ↔ lo < 0) := by
    intro J hJ
    obtain ⟨k, hge, hlt, hk⟩ := Dissection.exists_offset_of_mem_cover hJ
    exact ⟨fitting_of_mem_cover hlo' hhi' hlow hJ, hk.trans (by omega)⟩
  obtain ⟨values, s', hvalues, -⟩ := mapM_pieces (s := {}) combines willing (by omega) hlimit
    hpieces (sound_empty resolution) (onSide_of_empty rfl)
  obtain ⟨value, hproduct⟩ := combinesAll s'.tree.size values
  have hrun := realValue_onGrid source {} hlimit hempty hlo hhi
  rw [bind_of_ok hvalues, bind_of_ok (tree_run s'), hproduct] at hrun
  have hanswer : ({ policy } : Cache V).answer source (.real I) resolution =
      (.ok value, { policy, store := s' }) := answer_of_ok (.real I) hrun
  exact ⟨value, congrArg Prod.fst hanswer⟩

/-- An interval around zero fails at the piece that starts at zero, after all pieces before it. -/
theorem answer_onGrid_of_zero (hneg : lo < 0) (hpos : 0 < hi) :
    ∃ negative zero rest root,
      Dissection.cover lo hi resolution = negative ++ zero :: rest ∧
      (∀ J ∈ negative, J.offset < 0) ∧ zero.offset = 0 ∧
      let asked := requestsOf (negative.map fun J => (source, ⟨J, resolution⟩))
      let before := ({ policy } : Cache V).after asked
      ({ policy } : Cache V).Answered asked ∧ before.store.tree.root? = some root ∧
        ({ policy } : Cache V).answer source (.real I) resolution =
          (.error (.error (.rootUnreachable root zero)),
            { before with store := before.store.asked }) := by
  obtain ⟨hlo', -, hfine⟩ := Dissection.range_of_gridPoint hlo
  obtain ⟨-, hhi', -⟩ := Dissection.range_of_gridPoint hhi
  have hcut := Dissection.cover_neg hneg.le hpos.le resolution
  obtain ⟨zero, rest, hrest, hzero⟩ := Dissection.cover_zero hpos resolution
  have hpieces : ∀ J ∈ Dissection.cover lo 0 resolution,
      Fitting J resolution ∧ (J.offset < 0 ↔ True) := by
    intro J hJ
    obtain ⟨k, hge, hlt, hk⟩ := Dissection.exists_offset_of_mem_cover hJ
    exact ⟨fitting_of_mem_cover hlo' (by decide) hlow hJ, hk.trans (by simp [hlt])⟩
  obtain ⟨values, s', hvalues, hsound, hside, hne⟩ := mapM_pieces (s := {}) combines willing
    (by omega) hlimit hpieces (sound_empty resolution) (onSide_of_empty rfl)
  obtain ⟨root, hroot⟩ :=
    hsound.full.resolve_left (hne (.inr (Dissection.cover_ne_nil hneg resolution)))
  obtain ⟨hanswered, hafter⟩ := answered_of_mapM { policy } hvalues
  refine ⟨Dissection.cover lo 0 resolution, zero, rest, root, ?_, ?_, hzero, hanswered, ?_, ?_⟩
  · rw [hcut, hrest]
  · exact fun J hJ => (hpieces J hJ).2.2 trivial
  · rw [hafter]
    exact hroot.root?_eq
  · have hallow : policy.allowInterval zero resolution = .ok () := by
      have hneg₀ : -Dissection.offsetLimit ≤ 0 := by decide
      apply Dissection.allowInterval_of_mem_cover hneg₀ hhi' hlimit
      rw [hrest]
      exact List.mem_cons_self
    have hopposite : ¬ SameSide root zero := by
      intro hsame
      have := hsame.1 ((hside root hroot.root?_eq).2 trivial)
      omega
    have hlast := dyadicValue_unreachable source hallow hroot hopposite
    have hrun := realValue_onGrid source {} hlimit hempty hlo hhi
    rw [hcut, hrest, List.mapM_append, bind_assoc, bind_of_ok hvalues, List.mapM_cons, bind_assoc,
      bind_assoc, bind_of_error hlast] at hrun
    rw [hafter]
    exact answer_of_error (.real I) hrun

end Empty

/-- A cache accepts what the dissection on the grid makes of an interval, from the coarsest
resolution that is known to be served on. So whatever the store holds, offsets are never out of
range, and a resolution is only too fine if it is that of the query, the source's own errors aside.
An empty cache whose source refuses nothing answers just if the grid range does not go across zero;
where it does, the query fails at the piece that starts at zero, and leaves what the queries for the
pieces below zero leave, and one more query counted. -/
theorem accepted_on_grid (policy : Policy) (I : RealInterval) (resolution : Int)
    (hlow : lowestPower ≤ resolution) :
    (∀ pieces, resolution ≤ policy.maxResolution → Dissection.onGrid I resolution = .ok pieces →
      ∀ J ∈ pieces, policy.allow J.power = .ok () ∧ offsetsFit J resolution = true) ∧
    (∀ (store : Store V) (source : Source V) (error : Error),
      ((⟨policy, Dissection.onGrid, store⟩ : Cache V).answer source (.real I) resolution).1 =
        .error (.error error) → ¬ source.Refuses error →
      (∀ J finest, error ≠ .offsetOutOfRange J finest) ∧
      ∀ requested limit, error = .resolutionTooFine requested limit →
        requested = resolution ∧ limit = policy.maxResolution ∧ limit < requested) ∧
    (∀ (source : Source V) (lo hi : Int), source.Combines → source.CombinesAll →
      (∀ error, ¬ source.Refuses error) → I.isEmpty = false → resolution ≤ policy.maxResolution →
      Dissection.gridPoint I.start resolution = .ok lo →
      Dissection.gridPoint I.stop resolution = .ok hi →
      let cache : Cache V := { policy }
      ((∃ value, (cache.answer source (.real I) resolution).1 = .ok value) ↔
        ¬ (lo < 0 ∧ 0 < hi)) ∧
      (lo < 0 → 0 < hi → ∃ negative zero rest root,
        Dissection.cover lo hi resolution = negative ++ zero :: rest ∧
        (∀ J ∈ negative, J.offset < 0) ∧ zero.offset = 0 ∧
        let asked := requestsOf (negative.map fun J => (source, ⟨J, resolution⟩))
        let before := cache.after asked
        cache.Answered asked ∧ before.store.tree.root? = some root ∧
          cache.answer source (.real I) resolution =
            (.error (.error (.rootUnreachable root zero)),
              { before with store := before.store.asked }))) := by
  refine ⟨?_, ?_, ?_⟩
  · intro pieces hlimit hpieces J hJ
    obtain ⟨-, hpower, hfits⟩ :=
      allowInterval_eq_ok_iff.1 (allowInterval_of_onGrid hlimit hpieces J hJ)
    refine ⟨?_, hfits⟩
    rcases allow_cases policy J.power with ⟨-, hallow⟩ | ⟨hlt, -⟩
    · exact hallow
    · omega
  · intro store source error hanswer hnot
    rcases error_of_answer_onGrid (Prod.fst_eq_iff.1 hanswer) with ⟨hlt, rfl⟩ | ⟨reason, rfl⟩ |
      hrefuses | ⟨root, target, rfl⟩
    · refine ⟨by simp, ?_⟩
      rintro _ _ ⟨⟩
      exact ⟨rfl, rfl, hlt⟩
    · exact ⟨by simp, by simp⟩
    · exact absurd hrefuses hnot
    · exact ⟨by simp, by simp⟩
  · intro source lo hi combines combinesAll willing hempty hlimit hlo hhi cache
    refine ⟨⟨?_, answer_onGrid_of_side combines willing hlow hlimit hempty hlo hhi combinesAll⟩,
      answer_onGrid_of_zero combines willing hlow hlimit hempty hlo hhi⟩
    rintro ⟨value, hvalue⟩ ⟨hneg, hpos⟩
    obtain ⟨negative, zero, rest, root, -, -, -, -, -, hanswer⟩ :=
      answer_onGrid_of_zero combines willing hlow hlimit hempty hlo hhi hneg hpos
    simp only [cache, hanswer] at hvalue
    cases hvalue

/-- `[-1/2, 1/2)` is cut into two pieces, one on each side of zero. Both are accepted, the first one
is answered, and the second one can not be reached from it. -/
theorem accepted_around_zero :
    let I : RealInterval :=
      ⟨Float.ofBits 0xbfe0000000000000, Float.ofBits 0x3fe0000000000000⟩
    let T : Transcript := ⟨"v", [], false, none⟩
    let cache : Cache String := { policy := {} }
    Dissection.onGrid I 1 = .ok [⟨-1, 1⟩, ⟨0, 1⟩] ∧
      (∀ J ∈ ([⟨-1, 1⟩, ⟨0, 1⟩] : List DyadicInterval), offsetsFit J 1 = true) ∧
      (cache.answer T.source (.real I) 1).1 =
        .error (.error (.rootUnreachable ⟨-1, 1⟩ ⟨0, 1⟩)) ∧
      (cache.answer T.source (.real I) 1).2.store.activity.queries = 2 ∧
      ¬ ∃ value, (cache.answer T.source (.real I) 1).1 = .ok value := by
  dsimp only
  generalize hI : RealInterval.mk (Float.ofBits 0xbfe0000000000000)
    (Float.ofBits 0x3fe0000000000000) = I
  have hempty : I.isEmpty = false := by
    subst hI
    decide
  have hlo : Dissection.gridPoint I.start 1 = .ok (-1) := by
    subst hI
    rfl
  have hhi : Dissection.gridPoint I.stop 1 = .ok 1 := by
    subst hI
    rfl
  have hpieces : Dissection.onGrid I 1 = .ok [⟨-1, 1⟩, ⟨0, 1⟩] :=
    (Dissection.onGrid_eq hlo hhi).trans (by cbv)
  have hlow : lowestPower ≤ 1 := by decide
  obtain ⟨hpass, -, hzero⟩ := accepted_on_grid (V := String) {} I 1 hlow
  obtain ⟨hiff, -⟩ := hzero (Transcript.source ⟨"v", [], false, none⟩) (-1) 1
    (Transcript.combines _) (Transcript.combinesAll _) (Transcript.not_refuses _ rfl rfl) hempty
    (by decide) hlo hhi
  refine ⟨hpieces, fun J hJ => (hpass _ (by decide) hpieces J hJ).2, ?_, ?_, ?_⟩
  · simp only [answer, Work.answer, realValue, hempty, hpieces]
    cbv
  · simp only [answer, Work.answer, realValue, hempty, hpieces]
    cbv
  · exact fun hvalue => hiff.1 hvalue (by decide)

end Cache

end SignatureCache
