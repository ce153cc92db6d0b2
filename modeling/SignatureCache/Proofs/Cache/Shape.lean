import Mathlib
import SignatureCache.Proofs.Cache.Service
import SignatureCache.Proofs.DyadicInterval.Join
import SignatureCache.Proofs.Tree.Shape

/-!
# The shape does not depend on the order

What is asked of a cache forces certain intervals into its tree: those asked for, the smallest one
around them, the halves under an interval asked for down to its resolution, and parents and siblings
of all these. `Closed` says that a set has all of them. Each move of a query only adds members of
any closed set, and what has been served makes the set of keys closed, so the keys come to be the
least closed set. That set knows nothing of the order, the repetitions or the sources of the
requests, and neither does the shape that the keys decide.
-/

namespace SignatureCache

open DyadicInterval SignatureCache.Tree

/-- An interval asked for at a resolution. -/
structure Ask where
  interval : DyadicInterval
  resolution : Int

/-- The request of what is asked for, with the values of a source. -/
def Ask.request {V : Type} (ask : Ask) (source : Source V) : Request V :=
  ⟨source, .dyadic ask.interval, ask.resolution⟩

/-- The set has the interval `R` and what is asked for, with every member below `R` its parent and
its sibling, and with every member that is too coarse for what is asked its halves. -/
structure Closed (R : DyadicInterval) (asks : List Ask) (S : Set DyadicInterval) : Prop where
  root : R ∈ S
  asked : ∀ ask ∈ asks, ask.interval ∈ S
  around : ∀ J ∈ S, J ≠ R → J.parent ∈ S ∧ J.sibling ∈ S
  below : ∀ ask ∈ asks, ∀ J ∈ S, ask.interval.contains J = true → J.power < ask.resolution →
    J.left ∈ S ∧ J.right ∈ S

variable {V : Type} {source : Source V} {policy : Policy} {R J K : DyadicInterval}
  {asks : List Ask} {ask : Ask} {S : Set DyadicInterval} {limit : Int} {s s' : Store V}

/-- Everything between `R` and a member is a member. -/
theorem Closed.mem_of_between (h : Closed R asks S) (hJ : J ∈ S) (hR : R.contains K = true)
    (hK : K.contains J = true) : K ∈ S := by
  obtain ⟨n, rfl⟩ := contains_iff_ancestor.1 hK
  clear hK
  induction n with
  | zero => rwa [ancestor_zero]
  | succ n ih =>
    rw [ancestor_succ] at hR ⊢
    have hn := ih (contains_trans hR (parent_contains _))
    refine (h.around _ hn ?_).1
    rintro rfl
    simp [not_contains_parent] at hR

/-- Both halves of an interval below `R` with a member below it are members. -/
theorem Closed.halves_above (h : Closed R asks S) (hJ : J ∈ S) (hR : R.contains K = true)
    (hK : K.contains J = true) (hne : J ≠ K) : K.left ∈ S ∧ K.right ∈ S := by
  have hp := power_le_of_contains hR
  rcases left_contains_or_right_contains hK hne with hl | hr
  · have hleft := h.mem_of_between hJ (contains_trans hR (contains_left K)) hl
    have hneR : K.left ≠ R := ne_of_power_ne (by rw [left_power]; omega)
    have hright := (h.around _ hleft hneR).2
    rw [sibling_left] at hright
    exact ⟨hleft, hright⟩
  · have hright := h.mem_of_between hJ (contains_trans hR (contains_right K)) hr
    have hneR : K.right ≠ R := ne_of_power_ne (by rw [right_power]; omega)
    have hleft := (h.around _ hright hneR).2
    rw [sibling_right] at hleft
    exact ⟨hleft, hright⟩

namespace Work

/-! ### Nothing more than what is forced -/

theorem Move.mem_closed (hm : Move source ask.interval ask.resolution s s') (hask : ask ∈ asks)
    (hR : R.contains ask.interval = true) (hS : Closed R asks S) (hfull : s.tree.Full)
    (hmodest : s.tree.Modest)
    (h : ∀ key, s.tree.contains key = true → key ∈ S ∧ R.contains key = true) :
    ∀ key, s'.tree.contains key = true → key ∈ S ∧ R.contains key = true := by
  apply hm.keys hfull hmodest ⟨hS.asked ask hask, hR⟩ _ _ h
  · rintro root ⟨hroot, hc⟩ _ hout
    have hne : root ≠ R := by
      rintro rfl
      simp [hR] at hout
    have hparent := contains_parent_of_ne hc hne
    obtain ⟨hp, hs⟩ := hS.around root hroot hne
    exact ⟨⟨hp, hparent⟩, hs, contains_trans hparent (parent_contains_sibling root)⟩
  · rintro leaf ⟨hleaf, hc⟩ why
    have hmem : leaf.left ∈ S ∧ leaf.right ∈ S := by
      rcases why with ⟨hI, hne⟩ | ⟨hI, hlt⟩
      · exact hS.halves_above (hS.asked ask hask) hc hI hne
      · exact hS.below ask hask leaf hleaf hI hlt
    exact ⟨⟨hmem.1, contains_trans hc (contains_left leaf)⟩,
      hmem.2, contains_trans hc (contains_right leaf)⟩

/-! ### Nothing less -/

/-- A steady and exact store whose keys lie in `R`. -/
structure Confined (R : DyadicInterval) (limit : Int) (s : Store V) : Prop
    extends s.Steady limit where
  exact : s.tree.Exact
  inside : ∀ key, s.tree.contains key = true → R.contains key = true

theorem confined_empty (R : DyadicInterval) (limit : Int) : Confined R limit ({} : Store V) where
  toSteady := steady_empty limit
  exact := exact_empty
  inside := fun key hkey => by simp at hkey

theorem Moves.confined (hm : Moves source ask.interval ask.resolution s s')
    (combines : source.Combines)
    (hallow : policy.allowInterval ask.interval ask.resolution = .ok ())
    (hR : R.contains ask.interval = true) (h : Confined R policy.maxResolution s) :
    Confined R policy.maxResolution s' := by
  apply hm.keep _ h
  intro s s' h hm
  exact ⟨hm.steady hallow h.toSteady, hm.exact combines h.full h.exact,
    hm.inside h.full h.modest hR h.inside⟩

/-- What is asked for is cached, with all that lies under it down to the resolution. -/
structure Served (ask : Ask) (s : Store V) : Prop where
  asked : s.tree.contains ask.interval = true
  below : ∀ J, ask.interval.contains J = true → J.power ≤ ask.resolution →
    s.tree.contains J = true

theorem Served.mono (h : Served ask s)
    (hkeys : ∀ key, s.tree.contains key = true → s'.tree.contains key = true) : Served ask s' :=
  ⟨hkeys _ h.asked, fun J hc hp => hkeys J (h.below J hc hp)⟩

/-- The source combines and refuses nothing, and what is asked for passes the checks. -/
structure Willing (policy : Policy) (source : Source V) (ask : Ask) : Prop where
  combines : source.Combines
  refuses : ∀ error, ¬ source.Refuses error
  allowed : policy.allowInterval ask.interval ask.resolution = .ok ()

/-- Where no key leaves its words, everything that is asked for is served. -/
theorem dyadicValue_serves (hw : Willing policy source ask)
    (hlimit : policy.maxResolution < 0x7fffffff) (hpower : -0x80000000 ≤ R.power)
    (hR : R.contains ask.interval = true) (h : Confined R policy.maxResolution s) :
    Ends (dyadicValue policy source ask.interval ask.resolution) s
      (fun _ s' => Confined R policy.maxResolution s' ∧ Served ask s') (fun _ _ => False) := by
  have hside : ∀ root, s.tree.root? = some root → SameSide root ask.interval := by
    intro root hroot
    have hc := h.inside root (root?_eq_some_iff.1 hroot).1
    exact (sameSide_of_contains hc).symm.trans (sameSide_of_contains hR)
  apply (dyadicValue_ends hw.combines hw.allowed h.toSteady h.exact hside).mono
  · rintro value s' ⟨hm, root, node, hroot, hnode, -, hacc, -⟩
    have h' := hm.confined hw.combines hw.allowed hR h
    exact ⟨h', contains_of_find? hnode,
      fun J hc hp => h'.modest.contains_of_le hroot hnode hacc hc hp⟩
  · rintro failure s' ⟨hm, hb⟩
    have h' := hm.confined hw.combines hw.allowed hR h
    obtain ⟨error, -, hrefuses⟩ :=
      hb.refuses hw.combines (fit_of_inside h'.toSteady hlimit hpower hR h'.inside)
    exact hw.refuses error hrefuses

end Work

namespace Cache

open Work

/-- The requests of what is asked for, each with a source. -/
def requestsOf (runs : List (Source V × Ask)) : List (Request V) :=
  runs.map fun run => run.2.request run.1

variable {cache : Cache V} {runs : List (Source V × Ask)}

theorem after_contains (cache : Cache V) (requests : List (Request V)) (h : cache.store.tree.Full) :
    ∀ key, cache.store.tree.contains key = true →
      (cache.after requests).store.tree.contains key = true := by
  refine (after_induction (P := fun s => s.tree.Full ∧
    ∀ key, cache.store.tree.contains key = true → s.tree.contains key = true)
    (fun _ hs => hs.1) ?_ ⟨h, fun _ => id⟩).2
  rintro _ _ _ _ _ s s' ⟨hfull, hold⟩ hm
  exact ⟨hm.full hfull, fun key hkey => hm.contains hfull (hold key hkey)⟩

/-- One after the other, all that is asked for is served. -/
theorem after_served (cache : Cache V) (hlimit : cache.policy.maxResolution < 0x7fffffff)
    (hpower : -0x80000000 ≤ R.power)
    (willing : ∀ run ∈ runs, Willing cache.policy run.1 run.2)
    (hR : ∀ run ∈ runs, R.contains run.2.interval = true)
    (h : Confined R cache.policy.maxResolution cache.store) :
    Confined R cache.policy.maxResolution (cache.after (requestsOf runs)).store ∧
      ∀ run ∈ runs, Served run.2 (cache.after (requestsOf runs)).store := by
  induction runs generalizing cache with
  | nil => exact ⟨h, fun _ hrun => absurd hrun List.not_mem_nil⟩
  | cons run runs ih =>
    obtain ⟨source, ask⟩ := run
    have hends := dyadicValue_serves (willing _ List.mem_cons_self) hlimit hpower
      (hR _ List.mem_cons_self) h
    cases hrun : dyadicValue cache.policy source ask.interval ask.resolution cache.store with
    | error failure s =>
      rw [ends_of_error hrun] at hends
      exact hends.elim
    | ok value s =>
      rw [ends_of_ok hrun] at hends
      obtain ⟨h₁, hserved⟩ := hends
      have hanswer : (cache.answer source (.dyadic ask.interval) ask.resolution).2 =
          { cache with store := s } := by
        rw [answer_dyadic_of_ok hrun]
      have hstep : cache.after (requestsOf ((source, ask) :: runs)) =
          ({ cache with store := s } : Cache V).after (requestsOf runs) := by
        rw [← hanswer]
        rfl
      rw [hstep]
      obtain ⟨hend, hrest⟩ := ih { cache with store := s } hlimit
        (fun run hmem => willing run (List.mem_cons_of_mem _ hmem))
        (fun run hmem => hR run (List.mem_cons_of_mem _ hmem)) h₁
      refine ⟨hend, ?_⟩
      intro run hmem
      rcases List.mem_cons.1 hmem with rfl | hmem
      · exact hserved.mono (after_contains { cache with store := s } _ h₁.full)
      · exact hrest run hmem

/-- From an empty store on, all keys belong to every closed set. -/
theorem after_mem_closed (cache : Cache V) (hasks : ∀ run ∈ runs, run.2 ∈ asks)
    (hR : ∀ run ∈ runs, R.contains run.2.interval = true) (hS : Closed R asks S)
    (hempty : cache.store.tree = empty) :
    ∀ key, (cache.after (requestsOf runs)).store.tree.contains key = true → key ∈ S := by
  suffices hall : (cache.after (requestsOf runs)).store.tree.Full ∧
      (cache.after (requestsOf runs)).store.tree.Modest ∧
      ∀ key, (cache.after (requestsOf runs)).store.tree.contains key = true →
        key ∈ S ∧ R.contains key = true from
    fun key hkey => (hall.2.2 key hkey).1
  refine after_induction (P := fun s => s.tree.Full ∧ s.tree.Modest ∧
    ∀ key, s.tree.contains key = true → key ∈ S ∧ R.contains key = true)
    (fun _ hs => hs.1) ?_ ⟨.inl hempty, ?_, ?_⟩
  · intro request hrequest I hI _ s s' ⟨hfull, hmodest, hkeys⟩ hm
    obtain ⟨⟨source, ask⟩, hrun, rfl⟩ := List.mem_map.1 hrequest
    obtain rfl : I = ask.interval := List.mem_singleton.1 hI
    exact ⟨hm.full hfull, hm.modest hfull hmodest,
      hm.mem_closed (hasks _ hrun) (hR _ hrun) hS hfull hmodest hkeys⟩
  · rw [hempty]
    exact modest_empty
  · intro key hkey
    simp [hempty] at hkey

/-- The keys that have been served under the smallest interval around them are a closed set. -/
theorem closed_keys {root : DyadicInterval} (h : s.tree.FullUnder root)
    (hR : R.Spans (asks.map Ask.interval))
    (inside : ∀ key, s.tree.contains key = true → R.contains key = true)
    (served : ∀ ask ∈ asks, Served ask s) :
    root = R ∧ Closed R asks {key | s.tree.contains key = true} := by
  have hroot : root.contains R = true := by
    apply hR.least
    intro I hI
    obtain ⟨ask, hask, rfl⟩ := List.mem_map.1 hI
    exact h.root_contains (served ask hask).asked
  obtain rfl : R = root := eq_of_contains_of_power_le hroot
    (power_le_of_contains (inside root h.contains_root))
  refine ⟨rfl, h.contains_root, fun ask hask => (served ask hask).asked, ?_, ?_⟩
  · exact fun J hJ hne => ⟨h.contains_parent hJ hne, h.contains_sibling hJ hne⟩
  · intro ask hask J hJ hc hlt
    have hbelow := (served ask hask).below
    exact ⟨hbelow J.left (contains_trans hc (contains_left J)) (by rw [left_power]; omega),
      hbelow J.right (contains_trans hc (contains_right J)) (by rw [right_power]; omega)⟩

/-- The keys come to be the least closed set, in a full tree with exact accuracies. -/
theorem after_isLeast {policy : Policy} {dissection : Dissection} (hne : runs ≠ [])
    (hlimit : policy.maxResolution < 0x7fffffff) (hpower : -0x80000000 ≤ R.power)
    (willing : ∀ run ∈ runs, Willing policy run.1 run.2) (hasks : ∀ ask, ask ∈ asks ↔
      ask ∈ runs.map Prod.snd) (hR : R.Spans (asks.map Ask.interval)) :
    let t := (({ policy, dissection } : Cache V).after (requestsOf runs)).store.tree
    t.FullUnder R ∧ t.Exact ∧
      IsLeast {S : Set DyadicInterval | Closed R asks S} {key | t.contains key = true} := by
  intro t
  have hmem : ∀ run ∈ runs, run.2 ∈ asks :=
    fun run hrun => (hasks run.2).2 (List.mem_map.2 ⟨run, hrun, rfl⟩)
  have hin : ∀ run ∈ runs, R.contains run.2.interval = true :=
    fun run hrun => hR.contains _ (List.mem_map.2 ⟨run.2, hmem run hrun, rfl⟩)
  obtain ⟨hconfined, hserved⟩ := after_served { policy, dissection } hlimit hpower willing hin
    (confined_empty R policy.maxResolution)
  have hask : ∀ ask ∈ asks, Served ask
      (({ policy, dissection } : Cache V).after (requestsOf runs)).store := by
    intro ask hask
    obtain ⟨run, hrun, rfl⟩ := List.mem_map.1 ((hasks ask).1 hask)
    exact hserved run hrun
  obtain ⟨run, hrun⟩ := List.exists_mem_of_ne_nil runs hne
  obtain ⟨root, hroot⟩ := hconfined.full.exists_fullUnder (hserved run hrun).asked
  obtain ⟨rfl, hclosed⟩ := closed_keys hroot hR hconfined.inside hask
  exact ⟨hroot, hconfined.exact, hclosed,
    fun S hS key hkey => after_mem_closed { policy, dissection } hmem hin hS rfl key hkey⟩

/-- Requests that sources serve in full, and of which none breaks off for want of a comparison, lead
an empty cache to the least set of keys that what is asked for forces, if the root it takes has a
power that is a word. Keys are never lost on the way, so nothing else has ever been cached. Any other
such requests for the same, in any order, any number and with any sources, lead to a tree of the same
shape and fingerprint. -/
theorem shape_after_requests {τ : Type} [Shelf V τ] (policy : Policy) (dissection : Dissection)
    (hlimit : policy.maxResolution < 0x7fffffff) (runs : List (Source V × Ask)) (hne : runs ≠ [])
    (willing : ∀ run ∈ runs, Willing policy run.1 run.2)
    (side : ∀ run ∈ runs, ∀ other ∈ runs, SameSide run.2.interval other.2.interval)
    (compares : ({ policy, dissection } : Cache V τ).compares (requestsOf runs) = true) :
    let tree (runs : List (Source V × Ask)) : Tree V :=
      (({ policy, dissection } : Cache V τ).after (requestsOf runs)).plain.store.tree
    let asks := runs.map Prod.snd
    ∃ R : DyadicInterval, R.Spans (asks.map Ask.interval) ∧ (-0x80000000 ≤ R.power →
      IsLeast {S : Set DyadicInterval | Closed R asks S} {key | (tree runs).contains key = true} ∧
      (∀ earlier later, runs = earlier ++ later → ∀ key, (tree earlier).contains key = true →
        (tree runs).contains key = true) ∧
      ∀ others : List (Source V × Ask), (∀ run ∈ others, Willing policy run.1 run.2) →
        (∀ ask, ask ∈ others.map Prod.snd ↔ ask ∈ asks) →
        ({ policy, dissection } : Cache V τ).compares (requestsOf others) = true →
        (tree runs).SameShape (tree others) ∧
          (tree others).fingerprint = (tree runs).fingerprint) := by
  intro tree asks
  -- What the requests lead to is what they lead to with the tree on its own.
  have htree : ∀ {runs : List (Source V × Ask)},
      ({ policy, dissection } : Cache V τ).compares (requestsOf runs) = true →
      tree runs = (({ policy, dissection } : Cache V).after (requestsOf runs)).store.tree := by
    intro runs hruns
    have hplain := plain_after hruns
    rw [plain_new] at hplain
    exact congrArg (fun cache : Cache V => cache.store.tree) hplain
  have hside : ∀ I ∈ asks.map Ask.interval, ∀ J ∈ asks.map Ask.interval, SameSide I J := by
    intro I hI J hJ
    obtain ⟨ask, hask, rfl⟩ := List.mem_map.1 hI
    obtain ⟨other, hother, rfl⟩ := List.mem_map.1 hJ
    obtain ⟨run, hrun, rfl⟩ := List.mem_map.1 hask
    obtain ⟨run', hrun', rfl⟩ := List.mem_map.1 hother
    exact side run hrun run' hrun'
  obtain ⟨R, hR⟩ := exists_spans (by simpa [asks] using hne) hside
  refine ⟨R, hR, ?_⟩
  intro hpower
  obtain ⟨hroot, hexact, hleast⟩ : (tree runs).FullUnder R ∧ (tree runs).Exact ∧
      IsLeast {S | Closed R asks S} {key | (tree runs).contains key = true} := by
    rw [htree compares]
    exact after_isLeast hne hlimit hpower willing (fun _ => .rfl) hR
  refine ⟨hleast, ?_, ?_⟩
  · rintro earlier later rfl key hkey
    have happend : requestsOf (earlier ++ later) = requestsOf earlier ++ requestsOf later :=
      List.map_append
    have hearlier := htree (compares_append.1 (happend ▸ compares)).1
    have hfull : (({ policy, dissection } : Cache V).after
        (requestsOf earlier)).store.tree.Full := after_full (.inl rfl)
    rw [hearlier] at hkey
    rw [htree compares, happend, after_append]
    exact after_contains _ _ hfull key hkey
  · intro others hwilling hothers hcompares
    have hne' : others ≠ [] := by
      rintro rfl
      obtain ⟨run, hrun⟩ := List.exists_mem_of_ne_nil runs hne
      exact absurd ((hothers run.2).2 (List.mem_map.2 ⟨run, hrun, rfl⟩)) (by simp)
    obtain ⟨hroot', hexact', hleast'⟩ :
        (tree others).FullUnder R ∧ (tree others).Exact ∧
          IsLeast {S | Closed R asks S} {key | (tree others).contains key = true} := by
      rw [htree hcompares]
      exact after_isLeast hne' hlimit hpower hwilling (fun ask => (hothers ask).symm) hR
    have hkeys : ∀ key, (tree others).contains key = (tree runs).contains key := by
      intro key
      rw [Bool.eq_iff_iff]
      exact Set.ext_iff.1 (hleast'.unique hleast) key
    have hshape := sameShape_of_keys hroot hroot' hexact hexact' hkeys
    exact ⟨hshape, hshape.fingerprint_eq⟩

/-- One order grows the root around a refined interval, the other one descends to it. -/
theorem shape_after_two_orders :
    let T : Transcript := ⟨"v", [], false, none⟩
    let U : Transcript := ⟨"w", [], true, none⟩
    let s := (({} : IndexedCache String).after
      (requestsOf [(T.source, ⟨⟨1, 1⟩, 2⟩), (U.source, ⟨⟨1, 0⟩, 1⟩)])).plain.store
    let s' := (({} : IndexedCache String).after (requestsOf
      [(T.source, ⟨⟨1, 0⟩, 1⟩), (U.source, ⟨⟨1, 1⟩, 2⟩), (U.source, ⟨⟨1, 0⟩, 1⟩)])).plain.store
    s.tree.SameShape s'.tree ∧ s'.tree.fingerprint = s.tree.fingerprint := by
  intro T U s s'
  have willing : ∀ source : Source String, source = T.source ∨ source = U.source →
      ∀ ask : Ask, ask = ⟨⟨1, 1⟩, 2⟩ ∨ ask = ⟨⟨1, 0⟩, 1⟩ → Willing {} source ask := by
    rintro source hsource ask hask
    refine ⟨?_, ?_, ?_⟩
    · rcases hsource with rfl | rfl
      · exact Transcript.combines T
      · exact Transcript.combines U
    · rcases hsource with rfl | rfl
      · exact Transcript.not_refuses T rfl rfl
      · exact Transcript.not_refuses U rfl rfl
    · rw [allowInterval_eq_ok_iff]
      rcases hask with rfl | rfl
      · decide
      · decide
  have compares : ({} : IndexedCache String).compares
      (requestsOf [(T.source, ⟨⟨1, 1⟩, 2⟩), (U.source, ⟨⟨1, 0⟩, 1⟩)]) = true := by
    simp only [T, U]
    cbv
  obtain ⟨R, hR, hshape⟩ := shape_after_requests {} Dissection.onGrid (by decide)
    [(T.source, ⟨⟨1, 1⟩, 2⟩), (U.source, ⟨⟨1, 0⟩, 1⟩)] (List.cons_ne_nil _ _)
    (by
      intro run hrun
      simp only [List.mem_cons, List.not_mem_nil, or_false] at hrun
      rcases hrun with rfl | rfl
      · exact willing _ (.inl rfl) _ (.inl rfl)
      · exact willing _ (.inr rfl) _ (.inr rfl))
    (by simp [SameSide]) compares
  have hpower : -0x80000000 ≤ R.power := by
    have hc := power_le_of_contains (hR.least ⟨0, -1⟩ (by decide))
    exact (by decide : -0x80000000 ≤ (-1 : Int)).trans hc
  refine (hshape hpower).2.2 _ ?_ ?_ ?_
  · intro run hrun
    simp only [List.mem_cons, List.not_mem_nil, or_false] at hrun
    rcases hrun with rfl | rfl | rfl
    · exact willing _ (.inl rfl) _ (.inr rfl)
    · exact willing _ (.inr rfl) _ (.inl rfl)
    · exact willing _ (.inr rfl) _ (.inr rfl)
  · intro ask
    simp only [List.map_cons, List.map_nil, List.mem_cons, List.not_mem_nil, or_false]
    rw [← or_assoc, or_right_comm, or_self, or_comm]
  · simp only [T, U]
    cbv

/-- At the greatest power the walk ends at the first leaf it has made, and below the least power
there is no root for two neighbours: the keys are not the least closed set. -/
theorem shape_incomplete_at_outermost_powers :
    let T : Transcript := ⟨"v", [], false, none⟩
    let fine : Ask := ⟨⟨0, 0x7ffffffd⟩, 0x7fffffff⟩
    let left : Ask := ⟨⟨0, -0x80000000⟩, -0x80000000⟩
    let right : Ask := ⟨⟨1, -0x80000000⟩, -0x80000000⟩
    (Willing { maxResolution := 0x7fffffff } T.source fine ∧
      Spans ⟨0, 0x7ffffffd⟩ [fine.interval] ∧
      ¬ IsLeast {S : Set DyadicInterval | Closed ⟨0, 0x7ffffffd⟩ [fine] S}
        {key | (({ policy := { maxResolution := 0x7fffffff } } : IndexedCache String).after
          (requestsOf [(T.source, fine)])).plain.store.tree.contains key = true}) ∧
    (Willing {} T.source left ∧ Willing {} T.source right) ∧
      Spans ⟨0, -0x80000001⟩ [left.interval, right.interval] ∧
      ¬ IsLeast {S : Set DyadicInterval | Closed ⟨0, -0x80000001⟩ [left, right] S}
        {key | (({} : IndexedCache String).after
          (requestsOf [(T.source, left), (T.source, right)])).plain.store.tree.contains key =
            true} := by
  intro T fine left right
  have hrefuses : ∀ error, ¬ T.source.Refuses error := Transcript.not_refuses T rfl rfl
  have willing : ∀ (policy : Policy) (ask : Ask), ask.resolution ≤ policy.maxResolution ∧
      ask.interval.power ≤ policy.maxResolution ∧
      offsetsFit ask.interval ask.resolution = true → Willing policy T.source ask :=
    fun policy ask h => ⟨Transcript.combines T, hrefuses, allowInterval_eq_ok_iff.2 h⟩
  refine ⟨⟨willing _ _ (by decide), ⟨by decide, ?_⟩, ?_⟩,
    ⟨willing _ _ (by decide), willing _ _ (by decide)⟩, ⟨by decide, ?_⟩, ?_⟩
  · exact fun K hK => hK _ List.mem_cons_self
  · intro hleast
    have hright : (⟨1, 0x7ffffffe⟩ : DyadicInterval) ∈ _ :=
      (hleast.1.below fine List.mem_cons_self _ hleast.1.root (by decide) (by decide)).2
    have hleft : (⟨2, 0x7fffffff⟩ : DyadicInterval) ∈ _ :=
      (hleast.1.below fine List.mem_cons_self _ hright (by decide) (by decide)).1
    have hno : (({ policy := { maxResolution := 0x7fffffff } } : IndexedCache String).after
        (requestsOf [(T.source, fine)])).plain.store.tree.contains ⟨2, 0x7fffffff⟩ = false := by
      cbv
    rw [Set.mem_ofPred_eq, hno] at hleft
    cases hleft
  · intro K hK
    have hzero : K.contains left.interval = true := hK _ List.mem_cons_self
    have hone : K.contains right.interval = true :=
      hK _ (List.mem_cons_of_mem _ List.mem_cons_self)
    refine contains_parent_of_ne hzero ?_
    rintro rfl
    exact absurd hone (by decide)
  · intro hleast
    have hroot := hleast.1.root
    have hno : (({} : IndexedCache String).after (requestsOf
        [(T.source, left), (T.source, right)])).plain.store.tree.contains ⟨0, -0x80000001⟩ =
          false := by
      cbv
    rw [Set.mem_ofPred_eq, hno] at hroot
    cases hroot

end Cache

end SignatureCache
